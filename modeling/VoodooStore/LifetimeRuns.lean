import VoodooStore.Lifetimes

/-!
# Keys that expire in use

Deleting a key does not remove its expiry. In every run that deletes only keys
without one, every key of a user follows what was done to it
(`lifetimes_followed`); otherwise a key that is written again is hidden by the
expiry of the one before (`expiry_outlives_key`).
-/
namespace VoodooStore
open Effects
set_option linter.unusedSimpArgs false

/-! ## What is done with keys -/

inductive KeyFailure
  | Engine (error : EngineError)
  | Ttl (error : TtlError)
  | Atomic (error : AtomicError)
  deriving DecidableEq

inductive KeyCall
  | Put (io : Io) (key value : Bytes)
  | PutWithTtl (io : Io) (key value : Bytes) (expires_at_ms : Int64)
  | Delete (io : Io) (key : Bytes)
  | CompareAndSwap (io : Io) (key : Bytes) (expected replacement : Option Bytes)
  | IncrementI64 (io : Io) (key : Bytes) (delta : Int64)
  | ClearTtl (io : Io) (key : Bytes)
  | PurgeExpired (io : Io) (now_ms : Int64) (limit : Nat)

inductive KeyTxCall
  | Put (io : Io) (key value : Bytes)
  | Delete (io : Io) (key : Bytes)

/-- What a call returned; beside the report of a purge stand the keys of users that are gone. -/
inductive KeyReply
  | Done
  | Compared (outcome : CasOutcome)
  | Next (value : Int64)
  | Cleared (removed : Bool)
  | Purged (report : TtlSweepReport) (gone : List Bytes)

def KeyCall.io : KeyCall → Io
  | .Put io _ _ => io
  | .PutWithTtl io _ _ _ => io
  | .Delete io _ => io
  | .CompareAndSwap io _ _ _ => io
  | .IncrementI64 io _ _ => io
  | .ClearTtl io _ => io
  | .PurgeExpired io _ _ => io

def KeyTxCall.io : KeyTxCall → Io
  | .Put io _ _ => io
  | .Delete io _ => io

/-- The keys of users that are there before and not after. -/
def vanished (before after : State) : List Bytes :=
  (before.toList.map Prod.fst).filter (fun key => UserKey key ∧ after[key]? = none)

section
variable [Hashes]

def keys : Domain KeyFailure KeyCall KeyTxCall KeyReply where
  on_store
    | .Put io key value => do
      rethrow .Engine (Store.put io key value)
      return .Done
    | .PutWithTtl io key value expires_at_ms => do
      rethrow .Ttl (put_with_ttl io key value expires_at_ms)
      return .Done
    | .Delete io key => do
      rethrow .Engine (Store.delete io key)
      return .Done
    | .CompareAndSwap io key expected replacement => do
      return .Compared (← rethrow .Engine (compare_and_swap io key expected replacement))
    | .IncrementI64 io key delta => do
      return .Next (← rethrow .Atomic (increment_i64 io key delta))
    | .ClearTtl io key => do
      return .Cleared (← rethrow .Ttl (clear_ttl io key))
    | .PurgeExpired io now_ms limit => do
      let before ← get
      let report ← rethrow .Ttl (purge_expired io now_ms limit)
      return .Purged report (vanished before.state (← get).state)
  on_tx
    | .Put io key value => do
      rethrow .Engine (put io key value)
      return .Done
    | .Delete io key => do
      rethrow .Engine (delete io key)
      return .Done

end

abbrev KeyFact := Happened KeyFailure KeyCall KeyTxCall KeyReply

/-- What a call that succeeded has done to a key. -/
def KeyCall.means (call : KeyCall) (reply : KeyReply) (key : Bytes) : List Touch :=
  match call, reply with
  | .Put _ written value, _ => if written = key then [.Put value] else []
  | .PutWithTtl _ written value expires_at_ms, _ => if written = key then [.PutWithTtl value expires_at_ms] else []
  | .Delete _ deleted, _ => if deleted = key then [.Delete] else []
  | .CompareAndSwap _ compared _ (some value), .Compared .Swapped => if compared = key then [.Put value] else []
  | .CompareAndSwap _ compared _ none, .Compared .Swapped => if compared = key then [.Delete] else []
  | .IncrementI64 _ counter _, .Next value => if counter = key then [.Put value.to_le_bytes] else []
  | .ClearTtl _ cleared, _ => if cleared = key then [.ClearTtl] else []
  | .PurgeExpired _ _ _, .Purged _ gone => if key ∈ gone then [.Purge] else []
  | _, _ => []

def KeyTxCall.means (call : KeyTxCall) (key : Bytes) : List Touch :=
  match call with
  | .Put _ written value => if written = key then [.Put value] else []
  | .Delete _ deleted => if deleted = key then [.Delete] else []

def KeyFact.touches (key : Bytes) : KeyFact → List Touch
  | .Returned call (.ok reply) => call.means reply key
  | .Staged call (.ok _) _ => call.means key
  | _ => []

def touches (facts : List KeyFact) (key : Bytes) : List Touch := facts.flatMap (KeyFact.touches key)

/-- The life of a key after what was done. -/
def life (facts : List KeyFact) (key : Bytes) : Life := lifeOf (touches facts key)

/-- No key that has an expiry is deleted. -/
def KeyCall.Spares (state : State) : KeyCall → Prop
  | .Delete _ key => ∀ metadata_key, ttl_key key = .ok metadata_key → state[metadata_key]? = none
  | .CompareAndSwap _ key expected none => state[key]? = expected →
      ∀ metadata_key, ttl_key key = .ok metadata_key → state[metadata_key]? = none
  | _ => True

/-- The open transaction deletes no key that has an expiry. -/
def SparesExpiring (log : List KeyFact) : Prop :=
  ∀ io key reply spoiled, .Staged (.Delete io key) (.ok reply) spoiled ∈ (account log).pending →
    (life (account log).done key).expiry = none

def keyTerms : Terms KeyFailure KeyCall KeyTxCall KeyReply where
  mine := Lived
  call state call := call.io.Durable ∧ call.Spares state
  callTx _ call := call.io.Durable
  commit := SparesExpiring

/-! ## What the calls do -/

theorem mem_vanished {before after : State} {key : Bytes} :
    key ∈ vanished before after ↔ before[key]? ≠ none ∧ UserKey key ∧ after[key]? = none := by
  unfold vanished
  rw [List.mem_filter,List.mem_map]
  simp only [decide_eq_true_eq]
  refine and_congr_left (fun _ => ?_)
  constructor
  · rintro ⟨⟨_,value⟩,member,rfl⟩
    rw [Std.ExtTreeMap.mem_toList_iff_getElem?_eq_some] at member
    simp [member]
  · intro there
    obtain ⟨value,found⟩ := Option.ne_none_iff_exists'.mp there
    exact ⟨(key,value),Std.ExtTreeMap.mem_toList_iff_getElem?_eq_some.mpr found,rfl⟩

/-- The keys that are removed for some entries. -/
def removedKeys (entries : List ExpiredEntry) : List Bytes :=
  entries.flatMap (fun entry => (if entry.2.2 then [entry.2.1] else []) ++ [entry.1])

/-- An expiry that is over, with the key that it belongs to. -/
structure Overdue (store : Store) (now_ms : Int64) (entry : ExpiredEntry) : Prop where
  expired : ∃ value ttl, store.state[entry.1]? = some value ∧ decode_ttl value = .ok ttl ∧ ttl.is_expired now_ms = true
  own : starts_with entry.1 TTL_PREFIX = true
  user : decode_ttl_key entry.1 = .ok entry.2.1
  present : entry.2.2 = (store.get entry.2.1).isSome

theorem expired_entries_ok {self : Store} {now_ms : Int64} {limit scanned count : Nat} {found entries : List ExpiredEntry}
    {metadata : List (Bytes × Bytes)} (done : expired_entries self now_ms limit scanned found metadata = .ok (count,entries))
    (known : ∀ entry ∈ found, Overdue self now_ms entry)
    (inside : ∀ key value, (key,value) ∈ metadata → (key,value) ∈ scan self.state TTL_PREFIX) :
    ∀ entry ∈ entries, Overdue self now_ms entry := by
  induction metadata generalizing scanned found with
  | nil =>
    cases done
    exact known
  | cons first metadata ih =>
    obtain ⟨metadata_key,metadata_value⟩ := first
    have later : ∀ key value, (key,value) ∈ metadata → (key,value) ∈ scan self.state TTL_PREFIX :=
      fun key value member => inside key value (by simp [member])
    unfold expired_entries at done
    obtain ⟨ttl,decoded,done⟩ := bind_ok_iff.mp done
    split at done
    · rename_i past
      obtain ⟨user_key,read,done⟩ := bind_ok_iff.mp done
      dsimp only at done
      have more : ∀ entry ∈ found ++ [(metadata_key,user_key,(self.get user_key).isSome)], Overdue self now_ms entry := by
        intro entry member
        rcases List.mem_append.mp member with early | last
        · exact known entry early
        · rw [List.mem_singleton.mp last]
          obtain ⟨own,there⟩ := mem_scan.mp (inside metadata_key metadata_value (by simp))
          exact ⟨⟨metadata_value,ttl,there,decoded,past⟩,own,read,rfl⟩
      split at done
      · cases done
        exact more
      · exact ih done more later
    · exact ih done known later

section
variable [Hashes]

theorem put_ok {io : Io} {key value : Bytes} {tx u : Transaction} {x : Unit} (done : put io key value tx = .ok x u) :
    UserKey key ∧ key.length < 2 ^ 32 ∧ u.view = tx.view.insert key value := by
  obtain ⟨_,user,staged⟩ := lift_bind_ok.mp done
  refine ⟨user,?_,(put_internal_ok staged).1⟩
  rw [put_internal,stage,get_bind] at staged
  obtain ⟨_,-,staged⟩ := lift_bind_ok.mp staged
  obtain ⟨payload,encodes,-⟩ := lift_bind_ok.mp staged
  unfold encode_put UInt32.try_from at encodes
  by_contra long
  simp only [long,if_false] at encodes
  cases encodes

theorem delete_ok {io : Io} {key : Bytes} {tx u : Transaction} {x : Unit} (done : delete io key tx = .ok x u) :
    UserKey key ∧ u.view = tx.view.erase key := by
  obtain ⟨_,user,staged⟩ := lift_bind_ok.mp done
  exact ⟨user,(delete_internal_ok staged).1⟩

theorem user_put_stages {io : Io} (writes : io.WritesWhole) (key value : Bytes) : Stages (put io key value) :=
  (stages_of_reads (reads_lift _)).bind (fun _ => put_stages writes key value)

theorem user_delete_stages {io : Io} (writes : io.WritesWhole) (key : Bytes) : Stages (delete io key) :=
  (stages_of_reads (reads_lift _)).bind (fun _ => delete_stages writes key)

theorem remove_expired_stages {io : Io} (writes : io.WritesWhole) (entries : List ExpiredEntry) : Stages (remove_expired io entries) := by
  induction entries with
  | nil => exact stages_of_reads (reads_pure _)
  | cons entry entries ih =>
    obtain ⟨metadata_key,user_key,present⟩ := entry
    have rest : Stages (do delete_internal io metadata_key; remove_expired io entries) :=
      (delete_stages writes metadata_key).bind (fun _ => ih)
    cases present with
    | true => exact (user_delete_stages writes user_key).bind (fun _ => rest)
    | false => exact rest

theorem remove_expired_view {io : Io} {entries : List ExpiredEntry} {tx u : Transaction} {x : Unit}
    (done : remove_expired io entries tx = .ok x u) :
    u.view = apply_operations tx.view ((removedKeys entries).map .Delete) := by
  induction entries generalizing tx with
  | nil =>
    cases done
    rfl
  | cons entry entries ih =>
    obtain ⟨metadata_key,user_key,present⟩ := entry
    have rest : ∀ {middle : Transaction}, (do delete_internal io metadata_key; remove_expired io entries) middle = .ok x u →
        u.view = apply_operations (middle.view.erase metadata_key) ((removedKeys entries).map .Delete) := by
      intro middle later
      obtain ⟨_,last,deleted,later⟩ := bind_ok.mp later
      rw [ih later,(delete_internal_ok deleted).1]
    cases present with
    | true =>
      obtain ⟨_,middle,deleted,later⟩ := bind_ok.mp done
      rw [rest later,(delete_ok deleted).2]
      rfl
    | false => exact rest done

theorem purge_expired_atomic {io : Io} (durable : io.Durable) (now_ms : Int64) (limit : Nat) : Atomic (purge_expired io now_ms limit) := by
  unfold purge_expired
  split
  · exact atomic_of_reads (reads_pure _)
  refine .checked reads_get (fun self => .checked (reads_lift _) (fun found => ?_))
  obtain ⟨scanned,entries⟩ := found
  dsimp only
  split
  · exact atomic_of_reads (reads_pure _)
  · exact (within_atomic durable (remove_expired_stages durable.1 entries).rethrow).returning _

/-- A purge removes keys that are over, with their expiries, and nothing else. -/
theorem purge_expired_ok {io : Io} {now_ms : Int64} {limit : Nat} {store t : Store} {report : TtlSweepReport}
    (done : purge_expired io now_ms limit store = .ok report t) : ∃ entries, (∀ entry ∈ entries, Overdue store now_ms entry) ∧
      SameData (apply_operations store.state ((removedKeys entries).map .Delete)) t.state := by
  unfold purge_expired at done
  split at done
  · cases done
    exact ⟨[],by simp,.refl _⟩
  rw [get_bind] at done
  obtain ⟨⟨scanned,entries⟩,found,done⟩ := lift_bind_ok.mp done
  dsimp only at done
  have overdue := expired_entries_ok found (by simp) (fun _ _ member => member)
  split at done
  · cases done
    exact ⟨[],by simp,.refl _⟩
  · obtain ⟨_,_,removed,done⟩ := bind_ok.mp done
    cases done
    obtain ⟨tx,u,begun,body,same⟩ := within_ok removed
    rw [remove_expired_view (rethrow_ok.mp body),(begin_view begun).1] at same
    exact ⟨entries,overdue,same⟩

/-! ## What the calls mean -/

theorem key_call_atomic {call : KeyCall} (durable : call.io.Durable) : Atomic (keys.on_store call) := by
  cases call with
  | Put io key value => exact (within_atomic durable (user_put_stages durable.1 key value)).rethrow.returning (fun _ => KeyReply.Done)
  | PutWithTtl io key value expires_at_ms =>
    refine Atomic.returning (.rethrow (.checked (reads_lift _) (fun metadata_key => within_atomic durable ?_))) (fun _ => KeyReply.Done)
    exact (user_put_stages durable.1 key value).rethrow.bind (fun _ => (put_stages durable.1 _ _).rethrow)
  | Delete io key => exact (within_atomic durable (user_delete_stages durable.1 key)).rethrow.returning (fun _ => KeyReply.Done)
  | CompareAndSwap io key expected replacement =>
    refine Atomic.returning (.rethrow (.checked reads_get (fun self => ?_))) _
    split
    · exact atomic_of_reads (reads_pure _)
    · refine Atomic.returning (within_atomic durable ?_) (fun _ => CasOutcome.Swapped)
      cases replacement with
      | some value => exact user_put_stages durable.1 key value
      | none => exact user_delete_stages durable.1 key
  | IncrementI64 io key delta =>
    refine Atomic.returning (.rethrow (.checked reads_get (fun self => .checked (reads_lift _) (fun current => ?_)))) _
    refine .checked (reads_lift _) (fun next => ?_)
    exact (within_atomic durable (user_put_stages durable.1 key _)).rethrow.returning (fun _ => next)
  | ClearTtl io key =>
    refine Atomic.returning (.rethrow (.checked (reads_lift _) (fun metadata_key => .checked reads_get (fun self => ?_)))) _
    split
    · exact atomic_of_reads (reads_pure _)
    · exact (delete_alone_atomic durable metadata_key).rethrow.returning (fun _ => true)
  | PurgeExpired io now_ms limit =>
    refine .checked reads_get (fun before => ?_)
    have atomic := (purge_expired_atomic durable now_ms limit).rethrow (f := KeyFailure.Ttl)
    refine ⟨atomic.steady.bind (fun report => (steady_of_reads reads_get).bind (fun _ => steady_of_reads (reads_pure _))),?_⟩
    intro store e t failed
    rcases bind_error.mp failed with early | ⟨report,middle,-,late⟩
    · exact atomic.keeps store e t early
    · cases late

end

/-- Something is done to one key. -/
theorem life_touched {facts : List KeyFact} {fact : KeyFact} {key : Bytes} {touch : Touch}
    (touched : ∀ other, fact.touches other = if key = other then [touch] else []) :
    life (facts ++ [fact]) = Function.update (life facts) key ((life facts key).next touch) := by
  funext other
  have grows : touches (facts ++ [fact]) other = touches facts other ++ fact.touches other := by simp [touches]
  unfold life
  rw [grows,touched]
  by_cases here : key = other
  · subst here
    rw [if_pos rfl,life_snoc,Function.update_self]
  · rw [if_neg here,List.append_nil,Function.update_of_ne (Ne.symm here)]

/-- Nothing is done to any key. -/
theorem life_quiet {facts : List KeyFact} {fact : KeyFact} (quiet : ∀ other, fact.touches other = []) :
    life (facts ++ [fact]) = life facts := by
  funext other
  have grows : touches (facts ++ [fact]) other = touches facts other ++ fact.touches other := by simp [touches]
  unfold life
  rw [grows,quiet,List.append_nil]

/-- The users' keys of the expiries that are over. -/
theorem Tended.overdue {lives : Bytes → Life} {store : Store} (tended : Tended lives store.state) {now_ms : Int64} {entry : ExpiredEntry}
    (overdue : Overdue store now_ms entry) : UserKey entry.2.1 ∧ entry.1 = ttlKey entry.2.1 ∧ entry.2.2 = true ∧
      (∃ e, (lives entry.2.1).expiry = some e ∧ e ≤ now_ms) ∧ store.state[entry.2.1]? ≠ none := by
  obtain ⟨value,ttl,found,decoded,past⟩ := overdue.expired
  obtain ⟨user,is,fits,same⟩ := tended.owned _ value overdue.own found
  have read := overdue.user
  rw [same,decode_ttl_key_ttlKey fits] at read
  have user_is := Except.ok.inj read
  rw [same,tended.expiry user is fits] at found
  obtain ⟨e,expires,spelled⟩ := Option.map_eq_some_iff.mp found
  rw [← spelled,expiryBytes,decode_ttl_encode] at decoded
  cases decoded
  have there : store.state[user]? ≠ none := by
    rw [tended.value user is]
    exact tended.alive user is (by simp [expires])
  rw [← user_is,same]
  refine ⟨is,rfl,?_,⟨e,expires,of_decide_eq_true past⟩,there⟩
  rw [overdue.present,← user_is]
  exact Option.isSome_iff_ne_none.mpr there

/-- The lives with what the open transaction would do; it gives no key an expiry. -/
structure Foreseen (log : List KeyFact) (seen : State) : Prop where
  tended : Tended (life ((account log).done ++ (account log).pending)) seen
  lasting : ∀ key, (life (account log).done key).expiry = none →
    (life ((account log).done ++ (account log).pending) key).expiry = none

theorem spares_before {log : List KeyFact} {call : KeyTxCall} {result : Except KeyFailure KeyReply} {spoiled : Bool}
    (spares : SparesExpiring (log ++ [Happened.Staged call result spoiled])) : SparesExpiring log := by
  intro io key reply halfway member
  have later := spares io key reply halfway
  rw [account_snoc] at later
  exact later (List.mem_append_left _ member)

section
variable [Hashes]

/-- A call that deletes no key with an expiry does to the lives what it means. -/
theorem call_tended {call : KeyCall} {store t : Store} {reply : KeyReply} {facts : List KeyFact} (spares : call.Spares store.state)
    (tended : Tended (life facts) store.state) (done : keys.on_store call store = .ok reply t) :
    Tended (life (facts ++ [Happened.Returned call (.ok reply)])) t.state := by
  have puts : ∀ {io : Io} {key value : Bytes} {fact : KeyFact} {x : Unit}, Store.put io key value store = .ok x t →
      (∀ other, fact.touches other = if key = other then [.Put value] else []) → Tended (life (facts ++ [fact])) t.state := by
    intro io key value fact x written touched
    obtain ⟨tx,u,begun,body,same⟩ := within_ok written
    obtain ⟨user,fits,view⟩ := put_ok body
    rw [view,(begin_view begun).1] at same
    rw [life_touched touched]
    exact (tended.put user fits value).same same
  have deletes : ∀ {io : Io} {key : Bytes} {fact : KeyFact} {x : Unit}, Store.delete io key store = .ok x t →
      (∀ other, fact.touches other = if key = other then [.Delete] else []) →
      (∀ metadata_key, ttl_key key = .ok metadata_key → store.state[metadata_key]? = none) → Tended (life (facts ++ [fact])) t.state := by
    intro io key fact x written touched lasting
    obtain ⟨tx,u,begun,body,same⟩ := within_ok written
    obtain ⟨user,view⟩ := delete_ok body
    rw [view,(begin_view begun).1] at same
    rw [life_touched touched]
    exact (tended.delete user (fun fits => lasting _ (ttl_key_ok.mpr ⟨fits,rfl⟩))).same same
  cases call with
  | Put io key value =>
    obtain ⟨_,_,written,done⟩ := bind_ok.mp done
    cases done
    exact puts (rethrow_ok.mp written) (fun other => rfl)
  | PutWithTtl io key value expires_at_ms =>
    obtain ⟨_,_,written,done⟩ := bind_ok.mp done
    cases done
    obtain ⟨metadata_key,made,written⟩ := lift_bind_ok.mp (rethrow_ok.mp written)
    obtain ⟨fits,rfl⟩ := ttl_key_ok.mp made
    obtain ⟨tx,u,begun,body,same⟩ := within_ok written
    obtain ⟨_,middle,first,second⟩ := bind_ok.mp body
    obtain ⟨user,-,view⟩ := put_ok (rethrow_ok.mp first)
    rw [(put_internal_ok (rethrow_ok.mp second)).1,view,(begin_view begun).1] at same
    rw [@life_touched _ _ _ (.PutWithTtl value expires_at_ms) (fun other => rfl)]
    exact (tended.put_with_ttl user fits value expires_at_ms).same same
  | Delete io key =>
    obtain ⟨_,_,written,done⟩ := bind_ok.mp done
    cases done
    exact deletes (rethrow_ok.mp written) (fun other => rfl) spares
  | CompareAndSwap io key expected replacement =>
    obtain ⟨outcome,_,compared,done⟩ := bind_ok.mp done
    cases done
    have compared := rethrow_ok.mp compared
    unfold compare_and_swap at compared
    rw [get_bind] at compared
    split at compared
    · cases compared
      rw [life_quiet (fun other => by cases replacement <;> rfl)]
      exact tended
    · rename_i equal
      obtain ⟨_,_,written,compared⟩ := bind_ok.mp compared
      cases compared
      cases replacement with
      | some value => exact puts written (fun other => rfl)
      | none => exact deletes written (fun other => rfl) (spares (not_not.mp equal))
  | IncrementI64 io key delta =>
    obtain ⟨next,_,incremented,done⟩ := bind_ok.mp done
    cases done
    have incremented := rethrow_ok.mp incremented
    unfold increment_i64 at incremented
    rw [get_bind] at incremented
    obtain ⟨current,-,incremented⟩ := lift_bind_ok.mp incremented
    obtain ⟨_,-,incremented⟩ := lift_bind_ok.mp incremented
    obtain ⟨_,_,written,incremented⟩ := bind_ok.mp incremented
    cases incremented
    exact puts (rethrow_ok.mp written) (fun other => rfl)
  | ClearTtl io key =>
    obtain ⟨removed,_,cleared,done⟩ := bind_ok.mp done
    cases done
    obtain ⟨metadata_key,made,cleared⟩ := lift_bind_ok.mp (rethrow_ok.mp cleared)
    obtain ⟨fits,rfl⟩ := ttl_key_ok.mp made
    rw [@life_touched _ _ _ .ClearTtl (fun other => rfl)]
    rw [get_bind] at cleared
    split at cleared
    · rename_i absent
      cases cleared
      refine tended.lives_congr ?_
      intro other user
      by_cases here : other = key
      · subst here
        have none_there : (life facts other).expiry = none := by
          have found := tended.expiry other user fits
          rw [show store.state[ttlKey other]? = none from Option.isNone_iff_eq_none.mp absent] at found
          exact Option.map_eq_none_iff.mp found.symm
        rw [Function.update_self]
        show (⟨_,none⟩ : Life) = _
        rw [← none_there]
      · rw [Function.update_of_ne here]
    · rename_i present
      obtain ⟨_,_,deleted,cleared⟩ := bind_ok.mp cleared
      cases cleared
      have there : store.state[ttlKey key]? ≠ none := fun absent => present (Option.isNone_iff_eq_none.mpr absent)
      exact (tended.clear (tended.short there).1 fits).same (delete_alone_ok (rethrow_ok.mp deleted))
  | PurgeExpired io now_ms limit =>
    have done : (do
        let report ← rethrow KeyFailure.Ttl (purge_expired io now_ms limit)
        return KeyReply.Purged report (vanished store.state (← get).state)) store = .ok reply t := done
    obtain ⟨report,_,purged,done⟩ := bind_ok.mp done
    cases done
    obtain ⟨entries,overdue,same⟩ := purge_expired_ok (rethrow_ok.mp purged)
    have facts_of := fun entry member => tended.overdue (overdue entry member)
    have both : ∀ key, key ∈ removedKeys entries ↔ ∃ user ∈ entries.map (fun entry => entry.2.1), key = user ∨ key = ttlKey user := by
      intro key
      unfold removedKeys
      simp only [List.mem_flatMap,List.mem_map]
      constructor
      · rintro ⟨entry,member,inside⟩
        obtain ⟨-,keyed,present,-,-⟩ := facts_of entry member
        rw [present,keyed] at inside
        exact ⟨_,⟨entry,member,rfl⟩,by simpa using inside⟩
      · rintro ⟨_,⟨entry,member,rfl⟩,inside⟩
        obtain ⟨-,keyed,present,-,-⟩ := facts_of entry member
        refine ⟨entry,member,?_⟩
        rw [present,keyed]
        simpa using inside
    have purges := tended.purge (fun key => apply_deletes store.state (removedKeys entries) key) both (by
      intro user member
      obtain ⟨entry,inside,rfl⟩ := List.mem_map.mp member
      exact (facts_of entry inside).1)
    refine (purges.same same).lives_congr ?_
    intro key user
    have gone : key ∈ vanished store.state t.state ↔ key ∈ entries.map (fun entry => entry.2.1) := by
      rw [mem_vanished,same key (user_key_outside user),apply_deletes]
      constructor
      · rintro ⟨there,-,removed⟩
        split at removed
        · rename_i inside
          obtain ⟨other,member,rfl | rfl⟩ := (both key).mp inside
          · exact member
          · exact absurd user (ttlKey_reserved other)
        · exact absurd removed there
      · intro member
        obtain ⟨entry,inside,rfl⟩ := List.mem_map.mp member
        refine ⟨(facts_of entry inside).2.2.2.2,user,if_pos ((both _).mpr ⟨_,member,.inl rfl⟩)⟩
    have grows : touches (facts ++ [Happened.Returned (.PurgeExpired io now_ms limit) (.ok (.Purged report (vanished store.state t.state)))]) key =
        touches facts key ++ if key ∈ vanished store.state t.state then [.Purge] else [] := by
      simp [touches,KeyFact.touches,KeyCall.means]
    unfold life
    rw [grows]
    simp only [gone]
    split
    · rw [life_snoc]
    · rw [List.append_nil]

/-! ## Runs -/

theorem put_user_clean (io : Io) (key value : Bytes) : FailsClean (put io key value) :=
  .checked (reads_lift _) (fun _ => put_clean io key value)

theorem delete_user_clean (io : Io) (key : Bytes) : FailsClean (delete io key) :=
  .checked (reads_lift _) (fun _ => delete_clean io key)

/-- What is staged leads to the lives that it means. -/
theorem stage_foreseen {call : KeyTxCall} {tx : Transaction} {log : List KeyFact} (foreseen : Foreseen log tx.view)
    (spares : SparesExpiring (log ++ [Happened.Staged call (returned (keys.on_tx call) tx) (halfway (keys.on_tx call) tx)])) :
    Foreseen (log ++ [Happened.Staged call (returned (keys.on_tx call) tx) (halfway (keys.on_tx call) tx)]) (after (keys.on_tx call) tx).view := by
  generalize halfway (keys.on_tx call) tx = spoiled at spares ⊢
  have clean : FailsClean (keys.on_tx call) := by
    cases call with
    | Put io key value => exact (put_user_clean io key value).rethrow.returning (fun _ => KeyReply.Done)
    | Delete io key => exact (delete_user_clean io key).rethrow.returning (fun _ => KeyReply.Done)
  unfold after
  unfold returned at spares ⊢
  have shape : ∀ fact : KeyFact, (∃ call result spoiled, fact = .Staged call result spoiled) →
      (account (log ++ [fact])).done ++ (account (log ++ [fact])).pending = ((account log).done ++ (account log).pending) ++ [fact] ∧
        (account (log ++ [fact])).done = (account log).done := by
    rintro _ ⟨call,result,spoiled,rfl⟩
    rw [account_snoc]
    exact ⟨(List.append_assoc _ _ _).symm,rfl⟩
  cases result : keys.on_tx call tx with
  | error e u =>
    obtain ⟨grows,same⟩ := shape (.Staged call (.error e) spoiled) ⟨_,_,_,rfl⟩
    refine ⟨?_,?_⟩
    · rw [grows,life_quiet (fun _ => rfl)]
      show Tended _ u.view
      rw [clean tx e u result]
      exact foreseen.tended
    · rw [grows,same,life_quiet (fun _ => rfl)]
      exact foreseen.lasting
  | ok reply u =>
    rw [result] at spares
    obtain ⟨grows,same⟩ := shape (.Staged call (.ok reply) spoiled) ⟨_,_,_,rfl⟩
    have touched : ∀ {key : Bytes} {touch : Touch}, (∀ other, call.means other = if key = other then [touch] else []) →
        (∀ life : Life, life.expiry = none → (life.next touch).expiry = none) →
        Tended (Function.update (life ((account log).done ++ (account log).pending)) key
          ((life ((account log).done ++ (account log).pending) key).next touch)) u.view →
        Foreseen (log ++ [Happened.Staged call (.ok reply) spoiled]) u.view := by
      intro key touch means lasts tended
      have lives := @life_touched ((account log).done ++ (account log).pending) (.Staged call (.ok reply) spoiled) key touch means
      refine ⟨by rw [grows,lives]; exact tended,?_⟩
      intro other before
      rw [same] at before
      rw [grows,lives]
      by_cases here : other = key
      · subst here
        rw [Function.update_self]
        exact lasts _ (foreseen.lasting other before)
      · rw [Function.update_of_ne here]
        exact foreseen.lasting other before
    cases call with
    | Put io key value =>
      obtain ⟨_,_,staged,done⟩ := bind_ok.mp result
      cases done
      obtain ⟨user,fits,view⟩ := put_ok (rethrow_ok.mp staged)
      refine touched (fun other => rfl) (fun life before => before) ?_
      rw [view]
      exact foreseen.tended.put user fits value
    | Delete io key =>
      obtain ⟨_,_,staged,done⟩ := bind_ok.mp result
      cases done
      obtain ⟨user,view⟩ := delete_ok (rethrow_ok.mp staged)
      refine touched (fun other => rfl) (fun life before => rfl) ?_
      rw [view]
      refine foreseen.tended.delete user ?_
      intro fits
      have before : (life (account log).done key).expiry = none := by
        have spared := spares io key .Done spoiled
        rw [account_snoc] at spared
        exact spared (List.mem_append_right _ (by simp))
      rw [foreseen.tended.expiry key user fits,foreseen.lasting key before]
      rfl

theorem keys_preserved : Preserved keys keyTerms (fun state view log => Tended (life (account log).done) state ∧
    ∀ seen, view = some seen → SparesExpiring log → Foreseen log seen) := by
  constructor
  · exact fun call _ ok => (key_call_atomic ok.1).steady
  · intro call _ durable
    cases call with
    | Put io key value => exact (user_put_stages durable.1 key value).rethrow.bind (fun _ => stages_of_reads (reads_pure _))
    | Delete io key => exact (user_delete_stages durable.1 key).rethrow.bind (fun _ => stages_of_reads (reads_pure _))
  · rintro call store log ⟨durable,spares⟩ ⟨now,-⟩
    rw [account_snoc]
    refine ⟨?_,by simp⟩
    show Tended (life ((account log).done ++ [_])) _
    unfold returned after
    cases result : keys.on_store call store with
    | ok reply t => exact call_tended spares now result
    | error e t =>
      rw [life_quiet (fun _ => rfl)]
      show Tended _ t.state
      rw [(key_call_atomic durable).keeps store e t result]
      exact now
  · rintro state log ⟨now,-⟩
    have shape : account (log ++ [Happened.Began]) = ⟨(account log).done,[]⟩ := account_snoc log .Began
    rw [shape]
    refine ⟨now,?_⟩
    rintro _ ⟨⟩ -
    refine ⟨?_,?_⟩
    · rw [shape,List.append_nil]
      exact now
    · rw [shape,List.append_nil]
      exact fun key before => before
  · rintro call tx log durable ⟨now,seen⟩
    refine ⟨by rw [account_snoc]; exact now,?_⟩
    rintro _ ⟨⟩ spares
    exact stage_foreseen (seen tx.view rfl (spares_before spares)) spares
  · rintro state view next log same ⟨now,seen⟩
    refine ⟨now,?_⟩
    rintro _ ⟨⟩ spares
    have before := seen view rfl spares
    exact ⟨before.tended.congr same,before.lasting⟩
  · rintro state view next log spares same ⟨-,seen⟩
    rw [account_snoc]
    exact ⟨(seen view rfl spares).tended.same same,by simp⟩
  · rintro state view log ⟨now,-⟩
    rw [account_snoc]
    exact ⟨now,by simp⟩

end

/-- What the store says of a key is what was done to it: the expiry is the one
    that still stands, the value is the latest and is hidden exactly when the
    expiry is over, and no purge removes the key before. -/
structure Followed (store : Store) (key : Bytes) (touched : List Touch) : Prop where
  expires : key.length < 2 ^ 32 → ∀ expires_at_ms, store.ttl key = .ok (some ⟨expires_at_ms⟩) ↔ StillExpires touched expires_at_ms
  lasts : key.length < 2 ^ 32 → (store.ttl key = .ok none ↔ ∀ expires_at_ms, ¬ StillExpires touched expires_at_ms)
  value : store.get key = (lifeOf touched).value
  hidden : ∀ now_ms expires_at_ms, StillExpires touched expires_at_ms → expires_at_ms ≤ now_ms → store.get_at key now_ms = .ok none
  shown : ∀ now_ms, (∀ expires_at_ms, StillExpires touched expires_at_ms → ¬ expires_at_ms ≤ now_ms) →
    store.get_at key now_ms = .ok (lifeOf touched).value
  purged : ∀ [Hashes] (io : Io) (now_ms : Int64) (limit : Nat), io.Durable → store.get key ≠ none →
    (after (purge_expired io now_ms limit) store).get key = none → ∃ expires_at_ms ≤ now_ms, StillExpires touched expires_at_ms

theorem Tended.ttl {facts : List KeyFact} {store : Store} (tended : Tended (life facts) store.state) {key : Bytes} (user : UserKey key)
    (fits : key.length < 2 ^ 32) : store.ttl key = .ok ((life facts key).expiry.map TtlInfo.mk) := by
  unfold Store.ttl
  rw [ttl_key_ok.mpr ⟨fits,rfl⟩,ok_bind,Store.get,tended.expiry key user fits]
  cases (life facts key).expiry with
  | none => rfl
  | some expires_at_ms =>
    rw [Option.map_some,Option.mapM_some,expiryBytes,decode_ttl_encode]
    rfl

theorem Tended.get_at {facts : List KeyFact} {store : Store} (tended : Tended (life facts) store.state) {key : Bytes} (user : UserKey key)
    (now_ms : Int64) :
    store.get_at key now_ms = .ok (if (life facts key).expiry.any (fun e => e ≤ now_ms) then none else (life facts key).value) := by
  unfold Store.get_at
  rw [Store.get,tended.value key user]
  cases there : (life facts key).value with
  | none => simp
  | some value =>
    have fits := tended.fits key user (by simp [there])
    dsimp only
    rw [tended.ttl user fits,ok_bind]
    cases (life facts key).expiry with
    | none => rfl
    | some expires_at_ms =>
      rw [Option.map_some,Option.any_some,Option.any_some]
      show (if decide (expires_at_ms ≤ now_ms) = true then Except.ok none else Except.ok (some value)) = _
      split <;> rfl

theorem Tended.followed {facts : List KeyFact} {store : Store} (tended : Tended (life facts) store.state) {key : Bytes} (user : UserKey key) :
    Followed store key (touches facts key) := by
  have stands : ∀ expires_at_ms, (life facts key).expiry = some expires_at_ms ↔ StillExpires (touches facts key) expires_at_ms :=
    expiry_iff (touches facts key)
  constructor
  · intro fits expires_at_ms
    rw [tended.ttl user fits,← stands]
    cases (life facts key).expiry with
    | none => simp
    | some expires => simp
  · intro fits
    simp only [← stands]
    rw [tended.ttl user fits]
    cases (life facts key).expiry with
    | none => simp
    | some expires => simp
  · exact tended.value key user
  · intro now_ms expires_at_ms still past
    rw [tended.get_at user,(stands expires_at_ms).mpr still,Option.any_some,if_pos (decide_eq_true past)]
  · intro now_ms ahead
    rw [tended.get_at user,if_neg]
    · rfl
    · intro past
      cases expires : (life facts key).expiry with
      | none =>
        rw [expires] at past
        cases past
      | some expires_at_ms =>
        rw [expires,Option.any_some] at past
        exact ahead expires_at_ms ((stands _).mp expires) (of_decide_eq_true past)
  · intro _ io now_ms limit durable there gone
    unfold after at gone
    cases result : purge_expired io now_ms limit store with
    | error e t =>
      rw [result] at gone
      have kept := (purge_expired_atomic durable now_ms limit).keeps store e t result
      rw [Store.get] at there gone
      rw [kept] at gone
      exact absurd gone there
    | ok report t =>
      rw [result] at gone
      obtain ⟨entries,overdue,same⟩ := purge_expired_ok result
      have left : t.state[key]? = none := gone
      rw [same key (user_key_outside user),apply_deletes] at left
      split at left
      · rename_i inside
        obtain ⟨entry,member,removed⟩ := List.mem_flatMap.mp inside
        obtain ⟨is,keyed,present,⟨expires_at_ms,expires,past⟩,-⟩ := tended.overdue (overdue entry member)
        rw [present,keyed] at removed
        rcases List.mem_append.mp removed with own | twin
        · rw [← List.mem_singleton.mp own] at expires
          exact ⟨expires_at_ms,past,(stands expires_at_ms).mp expires⟩
        · rw [List.mem_singleton.mp twin] at user
          exact absurd user (ttlKey_reserved _)
      · exact absurd left there

section
variable [Hashes]

/-- In every run on a new store in which no key is deleted that has an expiry,
    neither by a call nor by a transaction that is committed, every key of a
    user follows what was done to it. -/
theorem lifetimes_followed {io : Io} {path : Path} {options : StoreOptions} {store : Store} {left : Bytes}
    (opened : open_with_options io path options [] = .ok store left) {moves : List (Move KeyCall KeyTxCall)}
    (along : (Play.mk (.Idle store) []).Along keys keyTerms moves) {key : Bytes} (user : UserKey key) :
    let play := Play.steps keys ⟨.Idle store,[]⟩ moves
    Followed play.session.store key (touches (account play.log).done key) := by
  have kept := play_invariant keys_preserved ⟨tended_empty,by simp⟩ opened along
  exact kept.holds.1.followed user

end

/-- A key that expires is deleted and written again. -/
def writtenAgain : List (Move KeyCall KeyTxCall) :=
  [.Call (.PutWithTtl calm [107] [1] 10),.Call (.Delete calm [107]),.Call (.Put calm [107] [2])]

set_option maxRecDepth 20000 in
/-- The key that was written again is hidden, though it has no expiry. -/
theorem expiry_outlives_key : ∃ store left, @open_with_options crates calm ["a.vstore"] .default [] = .ok store left ∧
    (∀ move ∈ writtenAgain, move.Fine Lived (fun call => call.io.Durable) (fun call => call.io.Durable)) ∧ UserKey [107] ∧
    ¬ Followed (@Play.steps crates _ _ _ _ (@keys crates) ⟨.Idle store,[]⟩ writtenAgain).session.store [107]
      (touches (account (@Play.steps crates _ _ _ _ (@keys crates) ⟨.Idle store,[]⟩ writtenAgain).log).done [107]) := by
  have evaluated : passes (@open_with_options crates calm ["a.vstore"] .default []) (fun store _ =>
        let play := @Play.steps crates _ _ _ _ (@keys crates) ⟨.Idle store,[]⟩ writtenAgain
        decide (touches (account play.log).done [107] = [.PutWithTtl [1] 10,.Delete,.Put [2]] ∧
          (play.session.store.get_at [107] 10).toOption = some none)) = true := by
    rw [crates_eq_quick]
    decide +kernel
  obtain ⟨store,left,opened⟩ := @sound_opens crates calm [] ["a.vstore"] .default calm_faultless (.inl rfl)
  rw [opened,passes_ok] at evaluated
  obtain ⟨touched,hidden⟩ := of_decide_eq_true evaluated
  refine ⟨store,left,opened,?_,by decide,?_⟩
  · intro move member
    simp only [writtenAgain,List.mem_cons,List.not_mem_nil,or_false] at member
    rcases member with rfl | rfl | rfl
    · exact calm_durable
    · exact calm_durable
    · exact calm_durable
  · intro followed
    rw [touched] at followed
    have shown := followed.shown 10 (by
      intro expires_at_ms still
      have none_left : (lifeOf [.PutWithTtl [1] 10,.Delete,.Put [2]]).expiry = none := rfl
      rw [← expiry_iff,none_left] at still
      cases still)
    rw [shown] at hidden
    cases hidden

/-- The key that is deleted in a transaction. -/
def KeyFact.deleted : KeyFact → Option Bytes
  | .Staged (.Delete _ key) _ _ => some key
  | _ => none

theorem spares_of_none {log : List KeyFact} (none_expires : (account log).pending.all (fun fact =>
      (KeyFact.deleted fact).all (fun key => (life (account log).done key).expiry.isNone)) = true) : SparesExpiring log := by
  intro io key reply spoiled member
  have here := List.all_eq_true.mp none_expires _ member
  exact Option.isNone_iff_eq_none.mp here

/-- A key expires, is purged and is written again, and the expiry of another is
    cleared before it is deleted together with a third that is written. -/
def purgedAndCleared : List (Move KeyCall KeyTxCall) :=
  [.Call (.PutWithTtl calm [107] [1] 10),.Call (.Put calm [107] [2]),.Call (.PurgeExpired calm 10 5),.Call (.Put calm [107] [3]),
    .Call (.PutWithTtl calm [108] [1] 10),.Call (.ClearTtl calm [108]),.Begin,.CallTx (.Delete calm [108]),.CallTx (.Put calm [109] [4])]

/-- The transaction is committed, another one is rolled back, and the store is opened again. -/
def settledAfter : List (Move KeyCall KeyTxCall) :=
  [.Begin,.CallTx (.Delete calm [107]),.Rollback,.Reopen calm ["a.vstore"] .default,.Call (.PurgeExpired calm 10 5)]

set_option maxRecDepth 20000 in
theorem purged_and_cleared_followed : ∃ store left, @open_with_options crates calm ["a.vstore"] .default [] = .ok store left ∧
    ∀ key, UserKey key → Followed (@Play.steps crates _ _ _ _ (@keys crates) ⟨.Idle store,[]⟩
      (purgedAndCleared ++ .Commit calm :: settledAfter)).session.store key
      (touches (account (@Play.steps crates _ _ _ _ (@keys crates) ⟨.Idle store,[]⟩
        (purgedAndCleared ++ .Commit calm :: settledAfter)).log).done key) := by
  have evaluated : passes (@open_with_options crates calm ["a.vstore"] .default []) (fun store _ =>
      let log := (@Play.steps crates _ _ _ _ (@keys crates) ⟨.Idle store,[]⟩ purgedAndCleared).log
      (account log).pending.all (fun fact =>
        (KeyFact.deleted fact).all (fun key => (life (account log).done key).expiry.isNone))) = true := by
    rw [crates_eq_quick]
    decide +kernel
  obtain ⟨store,left,opened,evaluated⟩ := passes_iff.mp evaluated
  refine ⟨store,left,opened,fun key user => @lifetimes_followed crates _ _ _ _ _ opened _ ?_ key user⟩
  have fine : ∀ moves : List (Move KeyCall KeyTxCall), (∀ io, .Commit io ∉ moves) →
      (∀ move ∈ moves, move.Fine Lived (fun call => call.io.Durable ∧ ∀ state, call.Spares state) (fun call => call.io.Durable)) →
      ∀ play, @Play.Along crates _ _ _ _ (@keys crates) keyTerms play moves := fun moves uncommitted ok play =>
    @along_of_fine crates _ _ _ _ _ keyTerms _ _ _ (fun state call fine => ⟨fine.1,fine.2 state⟩) (fun _ _ durable => durable)
      (fun io _ member => absurd member (uncommitted io)) ok play
  refine @along_through_commit crates _ _ _ _ _ keyTerms _ _ _ _ ?_ calm_durable (spares_of_none evaluated) ?_
  · refine fine _ (by simp [purgedAndCleared]) ?_ _
    intro move member
    simp only [purgedAndCleared,List.mem_cons,List.not_mem_nil,or_false] at member
    rcases member with rfl | rfl | rfl | rfl | rfl | rfl | rfl | rfl | rfl
    · exact ⟨calm_durable,fun _ => trivial⟩
    · exact ⟨calm_durable,fun _ => trivial⟩
    · exact ⟨calm_durable,fun _ => trivial⟩
    · exact ⟨calm_durable,fun _ => trivial⟩
    · exact ⟨calm_durable,fun _ => trivial⟩
    · exact ⟨calm_durable,fun _ => trivial⟩
    · exact trivial
    · exact calm_durable
    · exact calm_durable
  · refine fine _ (by simp [settledAfter]) ?_ _
    intro move member
    simp only [settledAfter,List.mem_cons,List.not_mem_nil,or_false] at member
    rcases member with rfl | rfl | rfl | rfl | rfl
    · exact trivial
    · exact calm_durable
    · exact trivial
    · exact trivial
    · exact ⟨calm_durable,fun _ => trivial⟩

end VoodooStore
