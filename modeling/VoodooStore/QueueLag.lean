import VoodooStore.QueueHealth

/-!
# The lag of a queue

`ready_lag_ms` takes the difference of two times in `i64`. The lag of a message
that has been ready for `2 ^ 63` milliseconds or longer does not fit there: a
build that checks for overflow panics, and one that does not reports no lag at
all. Below that the lag is exact (`ready_lag_exact_iff`).
-/
namespace VoodooStore
open Effects Reading
set_option linter.unusedSimpArgs false

/-- The error of a function that has no other one than to panic. -/
inductive Panic
  | Panicked
  deriving DecidableEq

instance : Panics Panic := ⟨.Panicked⟩

/-- `-` on `i64`. Out of range it panics where the build checks for overflow, and wraps where it does not. -/
def i64_sub {ε : Type} [Panics ε] (overflow_checks : Bool) (a b : Int64) : Except ε Int64 :=
  if overflow_checks ∧ ¬ (-2 ^ 63 ≤ a.toInt - b.toInt ∧ a.toInt - b.toInt < 2 ^ 63) then .error Panics.panic else .ok (a - b)

/-- `u64::try_from` on an `i64` -/
def u64_try_from_i64 (x : Int64) : Option UInt64 := if 0 ≤ x then some x.toUInt64 else none

def QueueStats.ready_lag_ms (overflow_checks : Bool) (self : QueueStats) (now_ms : Int64) : Except Panic (Option UInt64) :=
  match self.oldest_ready_at_ms with
  | none => .ok none
  | some oldest =>
    if oldest > now_ms then .ok (some 0) else do
    return u64_try_from_i64 (← i64_sub overflow_checks now_ms oldest)

/-! ## Subtraction -/

theorem i64_sub_inside {ε : Type} [Panics ε] {a b : Int64} (overflow_checks : Bool) (low : b.toInt ≤ a.toInt)
    (fits : a.toInt - b.toInt < 2 ^ 63) :
    ∃ c : Int64, (i64_sub overflow_checks a b : Except ε Int64) = .ok c ∧ c.toInt = a.toInt - b.toInt := by
  refine ⟨a - b,if_neg (by omega),?_⟩
  rw [Int64.toInt_sub]
  exact Int.bmod_eq_of_le (by norm_num; omega) (by norm_num; omega)

/-- A difference that is too large comes out negative if it comes out at all. -/
theorem i64_sub_outside {ε : Type} [Panics ε] {a b : Int64} (overflow_checks : Bool) (large : 2 ^ 63 ≤ a.toInt - b.toInt) :
    (i64_sub overflow_checks a b : Except ε Int64) = .error Panics.panic ∨
      ∃ c : Int64, (i64_sub overflow_checks a b : Except ε Int64) = .ok c ∧ c.toInt < 0 := by
  cases overflow_checks with
  | true => exact .inl (if_pos ⟨rfl,by omega⟩)
  | false =>
    refine .inr ⟨a - b,if_neg (by simp),?_⟩
    have least := b.le_toInt
    have most := a.toInt_lt
    have wrapped : (a.toInt - b.toInt).bmod (2 ^ 64) = a.toInt - b.toInt - 2 ^ 64 := by
      rw [← Int.sub_bmod_right]
      exact Int.bmod_eq_of_le (by norm_num at *; omega) (by norm_num at *; omega)
    rw [Int64.toInt_sub,wrapped]
    omega

theorem u64_try_from_i64_some {x : Int64} (positive : 0 ≤ x.toInt) : ∃ y, u64_try_from_i64 x = some y ∧ (y.toNat : Int) = x.toInt := by
  have above : 0 ≤ x := Int64.le_iff_toInt_le.mpr (by simpa using positive)
  refine ⟨x.toUInt64,if_pos above,?_⟩
  rw [Int64.toNat_toUInt64_of_le above]
  exact Int.toNat_of_nonneg positive

theorem u64_try_from_i64_none {x : Int64} (negative : x.toInt < 0) : u64_try_from_i64 x = none :=
  if_neg (fun positive => absurd (Int64.le_iff_toInt_le.mp positive) (by simpa using negative))

/-! ## The lag -/

/-- The lag at this time, of messages of which these are ready. -/
def Lag (ready : StoredMessage → Prop) (now_ms : Int64) : Option UInt64 → Prop
  | none => ∀ message, ¬ ready message
  | some lag => ∃ message, ready message ∧ (∀ other, ready other → message.available_at_ms ≤ other.available_at_ms) ∧
    (lag.toNat : Int) = max 0 (now_ms.toInt - message.available_at_ms.toInt)

theorem ready_at_iff {messages : List StoredMessage} {time : Int64} :
    time ∈ messages.filterMap StoredMessage.ready_at ↔ ∃ message ∈ messages, message.state = .Ready ∧ message.available_at_ms = time := by
  simp only [List.mem_filterMap,StoredMessage.ready_at,Option.ite_none_right_eq_some,Option.some.injEq]

/-- What the numbers of these messages say about their lag. -/
theorem ready_lag_of_tallies {stats : QueueStats} {messages : List StoredMessage} (tallies : Tallies stats messages)
    (overflow_checks : Bool) (now_ms : Int64) :
    let ready := fun message : StoredMessage => message ∈ messages ∧ message.state = .Ready
    (∃ lag, stats.ready_lag_ms overflow_checks now_ms = .ok lag ∧ Lag ready now_ms lag) ↔
      ∀ message, ready message → now_ms.toInt - message.available_at_ms.toInt < 2 ^ 63 := by
  intro ready
  have oldest := tallies.oldest
  unfold QueueStats.ready_lag_ms
  cases found : stats.oldest_ready_at_ms with
  | none =>
    rw [found,Least] at oldest
    have none_ready : ∀ message, ¬ ready message := by
      rintro message ⟨member,state⟩
      have listed := ready_at_iff.mpr ⟨message,member,state,rfl⟩
      rw [oldest] at listed
      cases listed
    constructor
    · exact fun _ message here => absurd here (none_ready message)
    · exact fun _ => ⟨none,rfl,none_ready⟩
  | some time =>
    rw [found] at oldest
    obtain ⟨first,member,state,rfl⟩ := ready_at_iff.mp oldest.1
    have least : ∀ other, ready other → first.available_at_ms ≤ other.available_at_ms :=
      fun other here => oldest.2 _ (ready_at_iff.mpr ⟨other,here.1,here.2,rfl⟩)
    have least_int : ∀ other, ready other → first.available_at_ms.toInt ≤ other.available_at_ms.toInt :=
      fun other here => Int64.le_iff_toInt_le.mp (least other here)
    dsimp only
    by_cases future : first.available_at_ms > now_ms
    · rw [if_pos future]
      have later : now_ms.toInt < first.available_at_ms.toInt := Int64.lt_iff_toInt_lt.mp future
      constructor
      · intro _ message here
        have := least_int message here
        omega
      · intro _
        refine ⟨some 0,rfl,first,⟨member,state⟩,least,?_⟩
        have zero : (0 : UInt64).toNat = 0 := rfl
        omega
    · rw [if_neg future]
      have past : first.available_at_ms.toInt ≤ now_ms.toInt := Int64.le_iff_toInt_le.mp (Int64.not_lt.mp future)
      by_cases fits : now_ms.toInt - first.available_at_ms.toInt < 2 ^ 63
      · constructor
        · intro _ message here
          have := least_int message here
          omega
        · intro _
          obtain ⟨difference,subtracted,is⟩ := @i64_sub_inside Panic _ _ _ overflow_checks past fits
          obtain ⟨lag,converted,same⟩ := @u64_try_from_i64_some difference (by omega)
          rw [subtracted]
          refine ⟨some lag,?_,first,⟨member,state⟩,least,by omega⟩
          rw [ok_bind,converted]
          rfl
      · constructor
        · rintro ⟨lag,reported,exactly⟩
          rcases @i64_sub_outside Panic _ now_ms first.available_at_ms overflow_checks (by omega) with panicked | ⟨difference,subtracted,negative⟩
          · rw [panicked] at reported
            cases reported
          · rw [subtracted,ok_bind,u64_try_from_i64_none negative] at reported
            cases reported
            exact absurd ⟨member,state⟩ (exactly first)
        · exact fun bounded => absurd (bounded first ⟨member,state⟩) fits

theorem reads_entries {name : Bytes} {messages : List StoredMessage} (fits : ∀ message ∈ messages, message.Fits) :
    List.Forall₂ (fun entry message => decode_message entry.2 = .ok message) (messages.map (entryIn name)) messages := by
  induction messages with
  | nil => exact .nil
  | cons message messages ih =>
    exact .cons (decode_message_spelling (fits message (by simp))) (ih (fun other member => fits other (by simp [member])))

/-- The lag that the numbers of a queue give is exact at this time. -/
def ExactLag (store : Store) (name : Bytes) (overflow_checks : Bool) (now_ms : Int64) : Prop :=
  ∃ stats, (queueOf name).stats store = .ok stats ∧ ∃ lag, stats.ready_lag_ms overflow_checks now_ms = .ok lag ∧
    Lag (fun message => (queueOf name).Holds store message ∧ message.state = .Ready) now_ms lag

/-- In every state reached from a new store, under any build and at any time:
    the lag of a queue is exact exactly if the lag of no ready message goes beyond `i64`. -/
theorem ready_lag_exact_iff [Hashes] {io : Io} {path : Path} {options : StoreOptions} {store : Store} {left : Bytes}
    (opened : open_with_options io path options [] = .ok store left) {moves : List (Move QueueCall QueueTxCall)}
    (along : (Play.mk (.Idle store) []).Along queues allQueues moves) {name : Bytes} {queue : Queue}
    (named : Queue.new name = .ok queue) (overflow_checks : Bool) (now_ms : Int64) :
    let reached := (Play.steps queues ⟨.Idle store,[]⟩ moves).session.store
    ExactLag reached name overflow_checks now_ms ↔
      ∀ message, queue.Holds reached message → message.state = .Ready → now_ms.toInt - message.available_at_ms.toInt < 2 ^ 63 := by
  obtain ⟨session,-,book,-⟩ := play_invariant queues_preserved ⟨fun key value _ found => by simp at found,by simp⟩ opened along
  intro reached
  have sound : reached.Sound := session.of_store
  obtain ⟨fits,rfl⟩ := queue_new_ok named
  have stored : Messages name reached.state := QueueBook.messages book fits
  obtain ⟨messages,scanned,short,held⟩ := messages_listed stored
  have few : messages.length < 2 ^ 64 := by
    have size := congrArg List.length scanned
    rw [List.length_map] at size
    have listed := scan_length_le reached.state (Queue.message_prefix (queueOf name))
    have keys := sound.few_keys
    rw [scan_prefix_eq] at size
    omega
  obtain ⟨stats,counted,tallies⟩ := @count_messages_tallies .default [] (messages.map (entryIn name)) messages tallies_default
    (reads_entries short) (by simpa using few)
  rw [List.nil_append] at tallies
  have lag := ready_lag_of_tallies tallies overflow_checks now_ms
  dsimp only at lag
  have same : (fun message => message ∈ messages ∧ message.state = .Ready) =
      (fun message => (queueOf name).Holds reached message ∧ message.state = .Ready) := by
    funext message
    rw [held]
  rw [same] at lag
  have computed : (queueOf name).stats reached = .ok stats := by
    rw [Queue.stats,scanned]
    exact counted
  constructor
  · rintro ⟨other,read,exactly⟩ message holds state
    rw [computed] at read
    cases read
    exact lag.mp exactly message ⟨(held message).mpr holds,state⟩
  · exact fun bounded => ⟨stats,computed,lag.mpr (fun message here => bounded message ((held message).mp here.1) here.2)⟩

/-- A message that became available at this time. -/
def pushedAt (available_at_ms : Int64) : List (Move QueueCall QueueTxCall) :=
  [.Call (.Push calm [97] [1] ⟨available_at_ms,0⟩),.Call (.Push calm [97] [2] ⟨2000,0⟩)]

theorem pushed_at_along (available_at_ms : Int64) (store : Store) :
    @Play.Along crates _ _ _ _ (@queues crates) (@allQueues) (Play.mk (.Idle store) []) (pushedAt available_at_ms) := by
  refine @along_of_fine crates _ _ _ _ _ (@allQueues) (fun call => call.io.Durable) (fun call => call.io.Durable) _
    (fun _ _ fine => fine) (fun _ _ fine => fine) (fun _ _ _ => trivial) ?_ _
  intro move member
  simp only [pushedAt,List.mem_cons,List.not_mem_nil,or_false] at member
  rcases member with rfl | rfl
  · exact calm_durable
  · exact calm_durable

/-- After the two messages are pushed, the second one lies a hundred milliseconds in the future. -/
def reachedBy (available_at_ms : Int64) (store : Store) : Store :=
  (@Play.steps crates _ _ _ _ (@queues crates) ⟨.Idle store,[]⟩ (pushedAt available_at_ms)).session.store

set_option maxRecDepth 20000 in
theorem lag_of_hundred : ∃ store left, @open_with_options crates calm ["a.vstore"] .default [] = .ok store left ∧
    ∀ overflow_checks, ExactLag (reachedBy 900 store) [97] overflow_checks 1000 := by
  obtain ⟨store,left,opened⟩ := @sound_opens crates calm [] ["a.vstore"] .default calm_faultless (.inl rfl)
  have evaluated : passes (@open_with_options crates calm ["a.vstore"] .default []) (fun store _ =>
      (Store.scan_prefix (reachedBy 900 store) (Queue.message_prefix (queueOf [97]))).all (fun entry =>
        (decode_message entry.2).toOption.all (fun message => decide (1000 - message.available_at_ms.toInt < 2 ^ 63)))) = true := by
    decide +kernel
  rw [opened,passes_ok] at evaluated
  refine ⟨store,left,opened,?_⟩
  intro overflow_checks
  refine (@ready_lag_exact_iff crates _ _ _ _ _ opened _ (pushed_at_along 900 store) [97] _ rfl overflow_checks 1000).mpr ?_
  intro message holds _
  obtain ⟨value,found,decoded⟩ := held_iff.mp holds
  have bounded := List.all_eq_true.mp evaluated _ (mem_scan.mpr ⟨message_key_starts _ _,found⟩)
  rw [decoded] at bounded
  exact of_decide_eq_true bounded

set_option maxRecDepth 20000 in
/-- A message that has been ready since the earliest time has no lag in one build, and panics in the other. -/
theorem earliest_lag_lost : ∃ store left, @open_with_options crates calm ["a.vstore"] .default [] = .ok store left ∧
    @Play.Along crates _ _ _ _ (@queues crates) (@allQueues) (Play.mk (.Idle store) []) (pushedAt Int64.minValue) ∧
    ∀ overflow_checks, ¬ ExactLag (reachedBy Int64.minValue store) [97] overflow_checks 0 := by
  obtain ⟨store,left,opened⟩ := @sound_opens crates calm [] ["a.vstore"] .default calm_faultless (.inl rfl)
  have evaluated : passes (@open_with_options crates calm ["a.vstore"] .default []) (fun store _ =>
        let reached := reachedBy Int64.minValue store
        decide ((queueOf [97]).stats reached = .ok ⟨2,0,0,2,some Int64.minValue⟩) &&
        decide ((queueOf [97]).load_message reached ((queueOf [97]).message_key 1) =
          .ok (some ⟨.Ready,1,[1],0,0,Int64.minValue,0⟩))) = true := by decide +kernel
  rw [opened,passes_ok] at evaluated
  obtain ⟨counted,holds⟩ := Bool.and_eq_true_iff.mp evaluated
  refine ⟨store,left,opened,pushed_at_along _ store,?_⟩
  rintro overflow_checks ⟨stats,read,lag,reported,exactly⟩
  rw [of_decide_eq_true counted] at read
  cases read
  cases overflow_checks with
  | true =>
    have panicked : QueueStats.ready_lag_ms true ⟨2,0,0,2,some Int64.minValue⟩ 0 = .error .Panicked := by decide
    rw [panicked] at reported
    cases reported
  | false =>
    have lost : QueueStats.ready_lag_ms false ⟨2,0,0,2,some Int64.minValue⟩ 0 = .ok none := by decide
    rw [lost] at reported
    cases reported
    have held := of_decide_eq_true holds
    exact exactly ⟨.Ready,1,[1],0,0,Int64.minValue,0⟩ ⟨held,rfl⟩

end VoodooStore
