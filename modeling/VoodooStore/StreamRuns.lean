import VoodooStore.Subscriptions

/-!
# Offsets without gaps

Appends go to a stream by calls on its handle and in transactions, some of which
are rolled back. If a transaction in which an append failed halfway is not
committed, the entries of a stream are at the offsets from zero on, in the order of
their appends (`stream_offsets_contiguous`). An append whose commit is not confirmed
leaves an entry behind the last offset (`unconfirmed_entry_left`).
-/
namespace VoodooStore
open Effects Messaging
set_option linter.unusedSimpArgs false

/-- The payloads at the offsets from zero on. -/
def numbered (payloads : List Bytes) : List StreamEntry := payloads.mapIdx (fun k payload => ⟨UInt64.ofNat k,payload⟩)

@[simp] theorem numbered_length (payloads : List Bytes) : (numbered payloads).length = payloads.length := by simp [numbered]

theorem numbered_snoc (payloads : List Bytes) (payload : Bytes) :
    numbered (payloads ++ [payload]) = numbered payloads ++ [⟨UInt64.ofNat payloads.length,payload⟩] := by
  simp [numbered,List.mapIdx_append]

/-- What has been appended to a stream. -/
def appends (name : Bytes) (facts : List StreamFact) : List StreamEntry := facts.flatMap (appended name)

@[simp] theorem appends_append (name : Bytes) (first second : List StreamFact) :
    appends name (first ++ second) = appends name first ++ appends name second := by simp [appends]

/-- The stream holds what was appended to it, numbered from zero. -/
structure Unbroken (name : Bytes) (facts : List StreamFact) (state : State) : Prop where
  laid : Laid name (appends name facts) (appends name facts).length state
  order : appends name facts = numbered ((appends name facts).map StreamEntry.payload)

theorem unbroken_empty (name : Bytes) : Unbroken name [] ∅ := ⟨laid_empty name,rfl⟩

theorem Unbroken.congr {name : Bytes} {facts : List StreamFact} {s t : State} (unbroken : Unbroken name facts s)
    (same : ∀ key, starts_with key (streamSpace name) = true → t[key]? = s[key]?) : Unbroken name facts t :=
  ⟨unbroken.laid.congr same,unbroken.order⟩

/-- A fact that says nothing of the stream. -/
theorem Unbroken.quiet {name : Bytes} {facts : List StreamFact} {state : State} {fact : StreamFact} (unbroken : Unbroken name facts state)
    (silent : appended name fact = []) : Unbroken name (facts ++ [fact]) state := by
  have nothing : appends name (facts ++ [fact]) = appends name facts := by simp [appends,silent]
  refine ⟨?_,?_⟩
  · rw [nothing]
    exact unbroken.laid
  · rw [nothing]
    exact unbroken.order

/-- One more entry at the next offset. -/
theorem Unbroken.append {name payload : Bytes} {facts : List StreamFact} {s t : State} {fact : StreamFact}
    (unbroken : Unbroken name facts s) (adds : appended name fact = [⟨UInt64.ofNat (appends name facts).length,payload⟩])
    (laid : Laid name (appends name facts ++ [⟨UInt64.ofNat (appends name facts).length,payload⟩]) ((appends name facts).length + 1) t) :
    Unbroken name (facts ++ [fact]) t := by
  have one_more : appends name (facts ++ [fact]) = appends name facts ++ [⟨UInt64.ofNat (appends name facts).length,payload⟩] := by
    simp [appends,adds]
  refine ⟨?_,?_⟩
  · rw [one_more,List.length_append]
    exact laid
  · rw [one_more,List.map_append,List.map_singleton,numbered_snoc,← unbroken.order,List.length_map]

/-- The calls that do not append to a stream do not write there. -/
theorem stream_space_elsewhere {name : Bytes} (fits : name.length < 2 ^ 32) {call : StreamCall}
    (others : ∀ io payload, call ≠ .Append io name payload) {key : Bytes} (own : starts_with key (streamSpace name) = true) :
    ¬ call.own key := by
  have stream : STREAM_PREFIX <+: key := (List.prefix_append _ _).trans ((starts_with_iff _ _).mp own)
  have subs : ∀ topic subscription, key ≠ subKey topic subscription := by
    rintro topic subscription rfl
    exact prefixes_apart (by decide) (List.prefix_append SUB_PREFIX _) stream
  have groups : ∀ stream group, key ≠ groupKey stream group := by
    rintro s group rfl
    exact prefixes_apart (by decide) (List.prefix_append GROUP_PREFIX _) stream
  cases call with
  | Append io stream payload =>
    refine @append_elsewhere name [] stream key fits ?_ (.inl own)
    rintro rfl
    exact others io payload rfl
  | AcknowledgeThrough io t s offset => exact fun mine => subs t s mine.2.2
  | ResetSubscription io t s offset => exact fun mine => subs t s mine.2.2
  | GroupClaim io s g consumer now_ms lease_duration_ms => exact fun mine => groups s g mine.2.2
  | GroupAck io s g consumer offset lease_generation => exact fun mine => groups s g mine.2.2
  | GroupNack io s g consumer offset lease_generation => exact fun mine => groups s g mine.2.2
  | GroupReset io s g next_offset => exact fun mine => groups s g mine.2.2

section
variable [Hashes] {name : Bytes} {facts : List StreamFact}

theorem call_unbroken (fits : name.length < 2 ^ 32) {call : StreamCall} (durable : call.io.Durable) {store : Store}
    (unbroken : Unbroken name facts store.state) :
    Unbroken name (facts ++ [Happened.Returned call (returned (streams.on_store call) store)]) (after (streams.on_store call) store).state := by
  have elsewhere := (stream_call_confined call).elsewhere store
  have keeps := (stream_call_atomic durable).keeps store
  unfold after at elsewhere ⊢
  unfold returned
  cases result : streams.on_store call store with
  | error e t =>
    show Unbroken name _ t.state
    rw [keeps e t result]
    exact unbroken.quiet (by cases call <;> rfl)
  | ok reply t =>
    rw [result] at elsewhere
    by_cases here : ∃ io payload, call = .Append io name payload
    · obtain ⟨io,payload,rfl⟩ := here
      obtain ⟨offset,_,called,done⟩ := bind_ok.mp result
      cases done
      obtain ⟨rfl,laid⟩ := append_laid unbroken.laid (rethrow_ok.mp called)
      exact unbroken.append (if_pos rfl) laid
    · have others : ∀ io payload, call ≠ .Append io name payload := fun io payload same => here ⟨io,payload,same⟩
      have kept := unbroken.congr (fun key own => elsewhere key (stream_apart name own) (stream_space_elsewhere fits others own))
      refine kept.quiet ?_
      unfold appended
      split
      · rename_i io stream payload offset same
        cases same
        refine if_neg ?_
        rintro rfl
        exact others io payload rfl
      · rename_i same
        cases same
      · rfl

theorem on_tx_stages {call : StreamTxCall} (durable : call.io.Durable) : Stages (streams.on_tx call) := by
  obtain ⟨io,stream,payload⟩ := call
  exact (append_stream_stages durable.1 stream payload).rethrow.bind (fun _ => stages_of_reads (reads_pure _))

theorem stage_unbroken (fits : name.length < 2 ^ 32) {call : StreamTxCall} {tx : Transaction} (durable : call.io.Durable)
    (unbroken : Unbroken name facts tx.view) (whole : halfway (streams.on_tx call) tx = false) (spoiled : Bool) :
    Unbroken name (facts ++ [Happened.Staged call (returned (streams.on_tx call) tx) spoiled]) (after (streams.on_tx call) tx).view := by
  have stages := on_tx_stages durable
  obtain ⟨io,stream,payload⟩ := call
  cases result : streams.on_tx (.AppendStream io stream payload) tx with
  | error e u =>
    rw [after,returned,result]
    show Unbroken name _ u.view
    rw [stages.unspoiled result whole]
    exact unbroken.quiet rfl
  | ok reply u =>
    have elsewhere : Elsewhere (StreamTxCall.own (.AppendStream io stream payload)) tx.view
        (after (streams.on_tx (.AppendStream io stream payload)) tx).view :=
      ((append_stream_confined io stream payload).rethrow.bind (fun _ => confined_view_of_reads (reads_pure _))).elsewhere tx
    rw [after,result] at elsewhere
    rw [after,returned,result]
    obtain ⟨offset,_,called,done⟩ := bind_ok.mp result
    cases done
    by_cases here : stream = name
    · subst here
      have laid := @append_stream_laid _ stream payload io tx _ _ unbroken.laid
      rw [rethrow_ok.mp called] at laid
      obtain ⟨rfl,laid⟩ := laid
      exact unbroken.append (if_pos rfl) laid
    · refine Unbroken.quiet (unbroken.congr ?_) (if_neg here)
      intro key own
      exact elsewhere key (stream_apart name own) (@append_elsewhere name [] stream key fits here (.inl own))

/-! ## Runs -/

/-- Others write elsewhere, and what failed halfway is not committed. -/
def streamTerms (name : Bytes) : Terms StreamFailure StreamCall StreamTxCall StreamReply where
  mine key := starts_with key (streamSpace name) = true
  call := fun _ call => call.io.Durable
  callTx := fun _ call => call.io.Durable
  commit := Unspoiled

theorem streams_preserved (fits : name.length < 2 ^ 32) : Preserved streams (streamTerms name) (fun state view log =>
    Unbroken name (account log).done state ∧
      ∀ seen, view = some seen → Unspoiled log → Unbroken name ((account log).done ++ (account log).pending) seen) := by
  constructor
  · exact fun call _ durable => (stream_call_atomic durable).steady
  · exact fun call _ durable => on_tx_stages durable
  · rintro call store log durable ⟨now,-⟩
    rw [account_snoc]
    exact ⟨call_unbroken fits durable now,by simp⟩
  · rintro state log ⟨now,-⟩
    rw [account_snoc]
    refine ⟨now,?_⟩
    rintro _ ⟨⟩ -
    show Unbroken name ((account log).done ++ []) state
    rw [List.append_nil]
    exact now
  · rintro call tx log durable ⟨now,seen⟩
    refine ⟨by rw [account_snoc]; exact now,?_⟩
    rintro _ ⟨⟩ unspoiled
    obtain ⟨before,whole⟩ := unspoiled_snoc unspoiled
    have staged := stage_unbroken fits durable (seen _ rfl before) whole (halfway (streams.on_tx call) tx)
    rw [account_snoc]
    rw [List.append_assoc] at staged
    exact staged
  · rintro state view next log same ⟨now,seen⟩
    refine ⟨now,?_⟩
    rintro _ ⟨⟩ unspoiled
    exact (seen view rfl unspoiled).congr same
  · rintro state view next log unspoiled same ⟨-,seen⟩
    rw [account_snoc]
    exact ⟨(seen view rfl unspoiled).congr (fun key own => same key (stream_apart name own)),by simp⟩
  · rintro state view log ⟨now,-⟩
    rw [account_snoc]
    exact ⟨now,by simp⟩

end

/-! ## What is read -/

/-- The stream holds these payloads at the offsets from zero on, the next counter is behind them, and reads are exact. -/
structure Contiguous (stream : Stream) (store : Store) (payloads : List Bytes) : Prop where
  short : payloads.length < 2 ^ 64
  next : stream.next_offset store = .ok (UInt64.ofNat payloads.length)
  stored : Store.scan_prefix store (Stream.entry_prefix stream) =
    (numbered payloads).map (fun entry => (stream.entry_key entry.offset,entry.spelling))
  read : ∀ offset limit, stream.read_from store offset limit = .ok (((numbered payloads).drop offset.toNat).take limit)
  tail : stream.tail_offset store = .ok (if payloads.length = 0 then none else some (UInt64.ofNat (payloads.length - 1)))

/-- Among the offsets from zero on, those at or behind one are those that are left without as many. -/
theorem numbered_filter {payloads : List Bytes} (short : payloads.length < 2 ^ 64) (offset : UInt64) :
    (numbered payloads).filter (fun entry => offset ≤ entry.offset) = (numbered payloads).drop offset.toNat := by
  induction payloads using List.reverseRecOn with
  | nil => simp [numbered]
  | append_singleton payloads payload ih =>
    rw [List.length_append,List.length_singleton] at short
    rw [numbered_snoc,List.filter_append,ih (by omega)]
    have here : (UInt64.ofNat payloads.length).toNat = payloads.length := UInt64.toNat_ofNat_of_lt' (by rw [UInt64.size]; omega)
    by_cases behind : offset.toNat ≤ payloads.length
    · have shown : offset ≤ UInt64.ofNat payloads.length := by rw [UInt64.le_iff_toNat_le,here]; exact behind
      rw [List.drop_append_of_le_length (by simpa using behind),List.filter_cons_of_pos (by simpa using shown),List.filter_nil]
    · have hidden : ¬ offset ≤ UInt64.ofNat payloads.length := by rw [UInt64.le_iff_toNat_le,here]; exact behind
      rw [List.filter_cons_of_neg (by simpa using hidden),List.filter_nil,List.append_nil,
        List.drop_of_length_le (by simp; omega),List.drop_of_length_le (by simp; omega)]

theorem Unbroken.contiguous {name : Bytes} {facts : List StreamFact} {store : Store} (unbroken : Unbroken name facts store.state) :
    Contiguous (streamOf name) store ((appends name facts).map StreamEntry.payload) := by
  have laid := unbroken.laid
  have short := laid.small
  have next : (streamOf name).next_offset store = .ok (UInt64.ofNat (appends name facts).length) := laid.next_offset
  refine ⟨by simpa using short,by rw [List.length_map]; exact next,?_,?_,?_⟩
  · rw [← unbroken.order,scan_prefix_eq,laid.lined.scan]
    rfl
  · intro offset limit
    have filtered := @numbered_filter ((appends name facts).map StreamEntry.payload) (by simpa using short) offset
    rw [← unbroken.order] at filtered ⊢
    rw [laid.read_from,filtered]
  · unfold Stream.tail_offset
    rw [next,ok_bind,List.length_map]
    have here : (UInt64.ofNat (appends name facts).length).toNat = (appends name facts).length := UInt64.toNat_ofNat_of_lt' short
    by_cases empty : (appends name facts).length = 0
    · rw [if_pos empty,empty]
      rfl
    · have some_entry : UInt64.ofNat (appends name facts).length ≠ 0 := by
        intro zero
        rw [zero] at here
        exact empty here.symm
      rw [if_neg some_entry,if_neg empty]
      show Except.ok (some _) = Except.ok (some _)
      congr 2
      apply UInt64.toNat.inj
      have bound : (appends name facts).length < UInt64.size := short
      rw [UInt64.toNat_sub_of_le,here,UInt64.toNat_ofNat_of_lt' (by omega)]
      · rfl
      · rw [UInt64.le_iff_toNat_le,here]
        show 1 ≤ _
        omega

section
variable [Hashes]

/-- After any run on a new store, in which transactions with an append that failed
    halfway are dropped, no write is cut short and every commit is confirmed, the payloads of a stream are those of its appends in
    order, each was told its offset, and all reads are exact. -/
theorem stream_offsets_contiguous {name : Bytes} {stream : Stream} (named : Stream.new name = .ok stream) {io : Io} {path : Path}
    {options : StoreOptions} {store : Store} {left : Bytes} (opened : open_with_options io path options [] = .ok store left)
    {moves : List (Move StreamCall StreamTxCall)} (along : (Play.mk (.Idle store) []).Along streams (streamTerms name) moves) :
    let play := Play.steps streams ⟨.Idle store,[]⟩ moves
    let payloads := (appends name (account play.log).done).map StreamEntry.payload
    appends name (account play.log).done = numbered payloads ∧ Contiguous stream play.session.store payloads := by
  obtain ⟨-,fits,rfl⟩ := stream_new_ok.mp named
  have kept := play_invariant (streams_preserved fits) ⟨unbroken_empty name,by simp⟩ opened along
  exact ⟨kept.holds.1.order,kept.holds.1.contiguous⟩

end

/-- Two entries, one that is rolled back, and a reopening. -/
def appendedAndRolledBack : List (Move StreamCall StreamTxCall) :=
  [.Call (.Append calm [116] [1]),.Call (.Append calm [116] [2]),.Begin,.CallTx (.AppendStream calm [116] [3]),.Rollback,
    .Reopen calm ["a.vstore"] .default]

theorem appended_and_rolled_back_contiguous : ∃ store left, @open_with_options crates calm ["a.vstore"] .default [] = .ok store left ∧
    let play := @Play.steps crates _ _ _ _ (@streams crates) ⟨.Idle store,[]⟩ appendedAndRolledBack
    Contiguous (streamOf [116]) play.session.store ((appends [116] (account play.log).done).map StreamEntry.payload) := by
  obtain ⟨store,left,opened⟩ := @sound_opens crates calm [] ["a.vstore"] .default calm_faultless (.inl rfl)
  have named : Stream.new [116] = .ok (streamOf [116]) := rfl
  refine ⟨store,left,opened,(@stream_offsets_contiguous crates _ _ named _ _ _ _ _ opened _ ?_).2⟩
  refine @along_of_fine crates _ _ _ _ _ (streamTerms [116]) (fun call => call.io.Durable) (fun call => call.io.Durable) _
    (fun _ _ durable => durable) (fun _ _ durable => durable) (fun io _ member => by simp [appendedAndRolledBack] at member) ?_ _
  intro move member
  simp only [appendedAndRolledBack,List.mem_cons,List.not_mem_nil,or_false] at member
  rcases member with rfl | rfl | rfl | rfl | rfl | rfl
  · exact calm_durable
  · exact calm_durable
  · exact trivial
  · exact calm_durable
  · exact trivial
  · exact trivial

/-- A transaction of two entries whose commit is not confirmed, and another entry. -/
def appendedTwice : List (Move StreamCall StreamTxCall) :=
  [.Begin,.CallTx (.AppendStream calm [116] [1]),.CallTx (.AppendStream calm [116] [2]),.Commit unsynced,
    .Call (.Append calm [116] [3]),.Reopen calm ["a.vstore"] .default]

set_option maxRecDepth 20000 in
/-- After the reopening there are two entries, and the counter stands at one. -/
theorem unconfirmed_entry_left : ∃ store left, @open_with_options crates calm ["a.vstore"] .default [] = .ok store left ∧
    let play := @Play.steps crates _ _ _ _ (@streams crates) ⟨.Idle store,[]⟩ appendedTwice
    appends [116] (account play.log).done = [⟨0,[3]⟩] ∧
      (streamOf [116]).next_offset play.session.store = .ok 1 ∧
      (streamOf [116]).read_from play.session.store 0 10 = .ok [⟨0,[3]⟩,⟨1,[2]⟩] ∧
      ∀ payloads, ¬ Contiguous (streamOf [116]) play.session.store payloads := by
  have evaluated : passes (@open_with_options crates calm ["a.vstore"] .default []) (fun store _ =>
      let play := @Play.steps crates _ _ _ _ (@streams crates) ⟨.Idle store,[]⟩ appendedTwice
      decide (appends [116] (account play.log).done = [⟨0,[3]⟩]) &&
        ((streamOf [116]).next_offset play.session.store).toOption.any (fun next => decide (next = 1)) &&
        (collect_entries (Stream.entry_prefix (streamOf [116])) 0 10 []
          (Store.scan_prefix play.session.store (Stream.entry_prefix (streamOf [116])))).toOption.any
          (fun read => decide (read = [⟨0,[3]⟩,⟨1,[2]⟩]))) = true := by
    rw [crates_eq_quick]
    decide +kernel
  obtain ⟨store,left,opened,evaluated⟩ := passes_iff.mp evaluated
  obtain ⟨evaluated,reads⟩ := Bool.and_eq_true_iff.mp evaluated
  obtain ⟨told,counts⟩ := Bool.and_eq_true_iff.mp evaluated
  have next := any_eq_iff.mp counts
  have collected := any_eq_iff.mp reads
  have read : (streamOf [116]).read_from (@Play.steps crates _ _ _ _ (@streams crates) ⟨.Idle store,[]⟩ appendedTwice).session.store 0 10 =
      .ok [⟨0,[3]⟩,⟨1,[2]⟩] := by
    unfold Stream.read_from
    rw [if_neg (by decide),collected,ok_bind,List.mergeSort_of_pairwise (by decide)]
    rfl
  refine ⟨store,left,opened,of_decide_eq_true told,next,read,?_⟩
  intro payloads contiguous
  have counted := contiguous.next
  have shown := contiguous.read 0 10
  rw [next] at counted
  rw [read] at shown
  have one : payloads.length = 1 := by
    have small := contiguous.short
    have counter := congrArg UInt64.toNat (Except.ok.inj counted)
    rw [UInt64.toNat_ofNat_of_lt' (by rw [UInt64.size]; omega)] at counter
    exact counter.symm
  have two := congrArg List.length (Except.ok.inj shown)
  simp [numbered,one] at two

end VoodooStore
