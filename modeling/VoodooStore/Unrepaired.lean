import VoodooStore.Faults
import VoodooStore.Success

/-!
# Opening without repair

A file with a torn tail may be opened without cutting the tail off. The store
then appends behind the tail, and recovery reads the tail and the first bytes
of what was appended as one record. `tail_swallows` follows the scan from
there; `unrepaired_safe_iff` says that no torn tail is safe to leave.
-/
namespace VoodooStore
open Effects Frames
set_option linter.unusedSimpArgs false

/-- Magic bytes behind fewer than four others are not seen. -/
theorem late_magic {tail : Bytes} (some_tail : tail ≠ []) (tiny : tail.length < 4) (rest : Bytes) :
    (tail ++ (MAGIC ++ rest)).take 4 ≠ MAGIC := by
  match tail, some_tail, tiny with
  | [a], _, _ => simp [MAGIC]
  | [a,b], _, _ => simp [MAGIC]
  | [a,b,c], _, _ => simp [MAGIC]

/-- The first bytes of the record of a put, whatever it puts. -/
def putFront (tx_id sequence : UInt64) : Bytes :=
  MAGIC ++ ([RecordKind.Put.as_u8] ++ (tx_id.to_le_bytes ++ sequence.to_le_bytes))

theorem putFront_length (tx_id sequence : UInt64) : (putFront tx_id sequence).length = 21 := by
  simp [putFront]

section
variable [Hashes]

/-! ## Streams that recovery refuses -/

/-- What follows the last record of the stream is not torn but bad. -/
def Refused (stream : Bytes) : Prop := recordHead (logFraming.rest stream) ≠ .torn

theorem refused_bad {stream : Bytes} {error : EngineError} (bad : recordHead stream = .bad error) : Refused stream := by
  have front : logFraming.head stream = .bad error := bad
  rw [Refused,logFraming.rest_other (by simp [front]),bad]
  simp

theorem refused_magic {stream : Bytes} (long : HEADER_LEN ≤ stream.length) (other : stream.take 4 ≠ MAGIC) :
    Refused stream := by
  have found := record_len_long long
  rw [if_pos other] at found
  have bad : recordHead stream = .bad (.Log .InvalidMagic) := by
    rw [recordHead,if_neg (by omega),found]
  exact refused_bad bad

/-- Whether the record at the front is read or not, what follows it is bad. -/
theorem refused_past {stream : Bytes} {n : Nat} (found : encoded_record_len_from_prefix stream = .ok n)
    (whole : n ≤ stream.length) (refused : Refused (stream.drop n)) : Refused stream := by
  cases front : recordHead stream with
  | bad error => exact refused_bad front
  | torn =>
    rcases recordHead_torn_iff.mp front with short | ⟨other,same,short⟩
    · rw [VoodooStore.encoded_record_len_from_prefix,if_pos short] at found
      cases found
    · rw [found] at same
      cases same
      omega
  | frame r =>
    obtain ⟨fits,follows,rfl⟩ := of_recordHead front
    rw [record_len_frame fits] at found
    cases found
    rw [List.drop_left] at refused
    have rest : logFraming.rest (r.frame ++ follows) = logFraming.rest follows := logFraming.rest_frame fits follows
    rw [Refused,rest]
    exact refused

/-- A run of zeros is no magic. -/
theorem refused_zeros {stream : Bytes} {zeros : Nat} {behind : Bytes}
    (spelled : stream = List.replicate (zeros + 4) 0 ++ behind) (long : HEADER_LEN ≤ stream.length) : Refused stream := by
  refine refused_magic long ?_
  rw [spelled,List.take_append_of_le_length (by simp),List.take_replicate]
  simp [MAGIC,List.replicate]

/-- The scan, set down anywhere in the first bytes of a record full of zeros,
    is lost: a header of zeros at once, or one that some of the record's own
    numbers happen to spell, which is followed by zeros. -/
theorem refused_inside {front behind : Bytes} {m : Nat} (size : front.length = 22) (positive : 0 < m) (inside : m ≤ 200)
    (long : HEADER_LEN ≤ behind.length) : Refused ((front ++ (List.replicate 258 0 ++ behind)).drop m) := by
  have header : 25 ≤ behind.length := long
  have landed : ∀ k, 22 ≤ k → k ≤ 276 → (front ++ (List.replicate 258 (0 : UInt8) ++ behind)).drop k =
      List.replicate ((276 - k) + 4) 0 ++ behind := by
    intro k low high
    have rest : k - 22 ≤ (List.replicate 258 (0 : UInt8)).length := by rw [List.length_replicate]; omega
    rw [List.drop_append,List.drop_of_length_le (by omega),List.nil_append,size,List.drop_append_of_le_length rest,
      List.drop_replicate]
    congr 2
    omega
  have zeros : ∀ k, 22 ≤ k → k ≤ 276 → Refused ((front ++ (List.replicate 258 0 ++ behind)).drop k) := by
    intro k low high
    refine refused_zeros (landed k low high) ?_
    rw [landed k low high]
    simp
    omega
  by_cases deep : 22 ≤ m
  · exact zeros m deep (by omega)
  · generalize whole : front ++ (List.replicate 258 (0 : UInt8) ++ behind) = stream at landed zeros ⊢
    have total : stream.length = 280 + behind.length := by
      rw [← whole,List.length_append,List.length_append,List.length_replicate,size]
      omega
    have enough : HEADER_LEN ≤ (stream.drop m).length := by rw [List.length_drop,HEADER_LEN]; omega
    by_cases magic : (stream.drop m).take 4 = MAGIC
    · have found := record_len_long enough
      have empty : ((stream.drop m).drop 21).take 4 = [0,0,0,0] := by
        rw [List.drop_drop,landed (m + 21) (by omega) (by omega),List.take_append_of_le_length (by simp),
          List.take_replicate]
        simp [List.replicate]
      rw [if_neg (not_not.mpr magic),empty] at found
      refine refused_past found ?_ ?_
      · rw [List.length_drop]
        show 29 + 0 ≤ _
        omega
      · rw [List.drop_drop]
        exact zeros (m + 29) (by omega) (by omega)
    · exact refused_magic enough magic

/-! ## What a torn tail does to the records behind it -/

/-- The record of a put of the empty key. -/
def putRecord (tx_id sequence : UInt64) (value : Bytes) : LogRecord :=
  ⟨.Put,tx_id,sequence,(UInt32.ofNat 0).to_le_bytes ++ ([] ++ value)⟩

theorem putFront_starts (tx_id sequence : UInt64) (value behind : Bytes) :
    putFront tx_id sequence <+: (putRecord tx_id sequence value).frame ++ behind := by
  rw [frame_parts,putFront]
  exact ⟨_,by simp [putRecord]; rfl⟩

/-- A put of many zeros is a record full of zeros. -/
theorem put_zeros (tx_id sequence : UInt64) (behind : Bytes) : ∃ front follows,
    (putRecord tx_id sequence (List.replicate 251 0)).frame ++ behind =
      front ++ (List.replicate 258 0 ++ (follows ++ behind)) ∧ front.length = 22 := by
  have length : (UInt32.ofNat 255).to_le_bytes = 255 :: List.replicate 3 0 := by decide
  have payload : (UInt32.ofNat 0).to_le_bytes ++ ([] ++ List.replicate 251 (0 : UInt8)) = List.replicate 255 0 := by
    have empty : (UInt32.ofNat 0).to_le_bytes = List.replicate 4 0 := by decide
    rw [empty,List.nil_append,List.replicate_append_replicate]
  refine ⟨putFront tx_id sequence ++ [255],
    (checksum (putRecord tx_id sequence (List.replicate 251 0)).body).to_le_bytes,?_,?_⟩
  · rw [frame_parts,putFront]
    simp only [putRecord]
    rw [payload,List.length_replicate,length]
    have zeros : List.replicate 258 (0 : UInt8) = List.replicate 3 0 ++ List.replicate 255 0 := by
      rw [List.replicate_append_replicate]
    rw [zeros]
    simp only [List.append_assoc,List.cons_append,List.nil_append]
  · rw [List.length_append,putFront_length]
    rfl

/-- A torn tail and what a transaction appends to it. Either everything is torn,
    and the transaction with it, or a transaction that puts zeros leaves a
    stream that recovery refuses. -/
theorem tail_swallows {tail small behind behindZeros : Bytes} (torn : recordHead tail = .torn) (some_tail : tail ≠ [])
    (tx_id sequence : UInt64) (short : small.length ≤ 1) (size : behind.length = 149) (sizeZeros : behindZeros.length = 149) :
    recordHead (tail ++ ((putRecord tx_id sequence small).frame ++ behind)) = .torn ∨
    Refused (tail ++ ((putRecord tx_id sequence (List.replicate 251 0)).frame ++ behindZeros)) := by
  obtain ⟨first,follows,spelled,firstSize⟩ := put_zeros tx_id sequence behindZeros
  have front := putFront_length tx_id sequence
  have starts : tail ++ putFront tx_id sequence <+: tail ++ ((putRecord tx_id sequence small).frame ++ behind) :=
    (List.prefix_append_right_inj tail).mpr (putFront_starts tx_id sequence small behind)
  have startsZeros : tail ++ putFront tx_id sequence <+:
      tail ++ ((putRecord tx_id sequence (List.replicate 251 0)).frame ++ behindZeros) :=
    (List.prefix_append_right_inj tail).mpr (putFront_starts tx_id sequence _ behindZeros)
  have smallSize : (tail ++ ((putRecord tx_id sequence small).frame ++ behind)).length ≤ tail.length + 183 := by
    simp only [List.length_append,frame_length,putRecord,size,u32_to_le_length,List.length_nil]
    omega
  have zerosSize : (tail ++ ((putRecord tx_id sequence (List.replicate 251 0)).frame ++ behindZeros)).length =
      tail.length + 433 := by
    simp only [List.length_append,frame_length,putRecord,sizeZeros,u32_to_le_length,List.length_nil,List.length_replicate]
  have header : ¬ tail.length < 4 → HEADER_LEN ≤ (tail ++ putFront tx_id sequence).length := by
    intro magic
    rw [List.length_append,front,HEADER_LEN]
    omega
  by_cases tiny : tail.length < 4
  · -- The magic bytes of the first record come too late.
    right
    refine refused_magic (by rw [zerosSize,HEADER_LEN]; omega) ?_
    obtain ⟨later,split⟩ := startsZeros
    rw [← split,putFront,List.append_assoc,List.append_assoc]
    exact late_magic some_tail tiny _
  · cases found : encoded_record_len_from_prefix (tail ++ putFront tx_id sequence) with
    | error error =>
      right
      refine refused_magic (by rw [zerosSize,HEADER_LEN]; omega) ?_
      rw [record_len_cut startsZeros (header tiny),record_len_long (by rw [zerosSize,HEADER_LEN]; omega)] at found
      intro magic
      rw [if_neg (not_not.mpr magic)] at found
      cases found
    | ok n =>
      have past : tail.length < n := by
        rcases recordHead_torn_iff.mp torn with missing | ⟨other,announced,missing⟩
        · have least := record_len_ge found
          rw [HEADER_LEN] at missing
          omega
        · by_cases whole : HEADER_LEN ≤ tail.length
          · rw [record_len_cut (List.prefix_append tail (putFront tx_id sequence)) whole,found] at announced
            cases announced
            exact missing
          · have least := record_len_ge found
            rw [HEADER_LEN] at whole
            omega
      have foundZeros := found
      rw [record_len_cut starts (header tiny)] at found
      rw [record_len_cut startsZeros (header tiny)] at foundZeros
      by_cases far : tail.length + 183 < n
      · exact .inl (recordHead_short found (by omega))
      · right
        refine refused_past foundZeros (by omega) ?_
        have skip : n = tail.length + (n - tail.length) := by omega
        rw [skip,← List.drop_drop,List.drop_left,spelled]
        exact refused_inside firstSize (by omega) (by omega) (by rw [List.length_append,sizeZeros,HEADER_LEN]; omega)

/-! ## Files -/

/-- The counters have room for one more transaction with one change. -/
structure HasRoom (file : Bytes) : Prop where
  tx_id : ∀ r ∈ records file, r.tx_id.toNat + 2 < 2 ^ 64
  sequence : (lastSequence (records file)).toNat + 4 < 2 ^ 64

/-- However the file is used when it is opened without repair, it can be opened
    again, and then holds every transaction whose commit returned `Ok` on top
    of what it held at first. -/
def UnrepairedSafe (file : Bytes) : Prop :=
  ∀ io path options store left calls, io.Faultless → options.repair_torn_tail = false →
    open_with_options io path options file = .ok store left → (∀ call ∈ calls, call.1.Faultless) →
    ∀ again place choice, again.Faultless → ∃ reopened found,
      open_with_options again place choice (Run.steps ⟨.Idle store,[]⟩ calls).session.store.file = .ok reopened found ∧
      reopened.state =
        applyCommitments store.state ((Run.steps ⟨.Idle store,[]⟩ calls).history.map Entry.toCommitment)

/-- A file without a torn tail is safe. -/
theorem whole_file_safe {file : Bytes} (sound : FileSound file) (whole : fragment file = []) : UnrepairedSafe file := by
  intro io path options store left calls faultless unrepaired opened calm_calls again place choice quiet
  obtain ⟨started,state⟩ := opened_run (.inr sound) opened
  obtain ⟨-,-,recovery,begun,opens⟩ := open_ok opened
  obtain ⟨-,-,kept⟩ := open_sound opens (.inr sound)
  rw [whole,ite_self] at kept
  obtain ⟨ended,-⟩ := steps_whole started kept (fun call member => (calm_calls call member).writes_whole)
    (fun call member tx_id => (calm_calls call member).1 _)
  obtain ⟨reopened,found,again_opened⟩ := sound_opens place choice quiet (.inr ended.session.of_store.file)
  obtain ⟨-,-,again_recovery,again_started,again_opens⟩ := open_ok again_opened
  obtain ⟨againSound,read,-⟩ := open_sound again_opens (.inr ended.session.of_store.file)
  refine ⟨reopened,found,again_opened,?_⟩
  rw [againSound.state,read,← ended.session.of_store.state,ended.state,← state]

/-- What is appended is read together with the fragment before it. -/
theorem read_behind {file : Bytes} (long : STORE_HEADER_LEN ≤ file.length) (appended : Bytes) :
    records (file ++ appended) = records file ++ logFraming.values (fragment file ++ appended) ∧
      fragment (file ++ appended) = logFraming.rest (fragment file ++ appended) := by
  have body : (file ++ appended).drop STORE_HEADER_LEN = frames (records file) ++ (fragment file ++ appended) := by
    rw [List.drop_append_of_le_length long,← frames_fragment file,List.append_assoc]
  constructor
  · rw [records,body]
    exact logFraming.values_encodeAll (records_fit file) _
  · rw [fragment,body]
    exact logFraming.rest_encodeAll (records_fit file) _

/-- Options that leave a torn tail alone and set no quota. -/
def leaveTail : StoreOptions := { StoreOptions.default with repair_torn_tail := false }

/-- A store opened without repair goes on where the file ends. -/
theorem opened_unrepaired {io : Io} {path : Path} {file left : Bytes} {store : Store} (sound : FileSound file)
    (room : HasRoom file) (opened : open_with_options io path leaveTail file = .ok store left) :
    store.file = file ∧ store.options.Unlimited ∧ store.next_tx_id.toNat + 1 < 2 ^ 64 ∧
      store.next_sequence.toNat + 3 < 2 ^ 64 := by
  obtain ⟨-,-,recovery,started,opens⟩ := open_ok opened
  obtain ⟨header,has⟩ := sound.header
  have long := has.long
  have same : started = file := by
    rcases opens.starts.2 with same | ⟨rfl,-⟩
    · exact same
    · simp [STORE_HEADER_LEN] at long
  obtain ⟨acc,replayed,-,reported⟩ := recover_ok_iff.mp opens.recovers
  rw [same] at replayed
  have known := replay_ok replayed
  have txCounter := next_counter_ok opens.next_tx_id
  have sequenceCounter := next_counter_ok opens.next_sequence
  rw [reported] at txCounter sequenceCounter
  dsimp only [Progress.report] at txCounter sequenceCounter
  rw [known.txId] at txCounter
  rw [known.sequence] at sequenceCounter
  have last : (18446744073709551614 : UInt64).toNat = 2 ^ 64 - 2 := rfl
  have below : ((records file).map LogRecord.tx_id).foldl max 0 < (18446744073709551614 : UInt64) := by
    refine foldl_max_lt (by decide) ?_
    intro t member
    obtain ⟨r,inLog,rfl⟩ := List.mem_map.mp member
    have bound := room.tx_id r inLog
    exact UInt64.lt_iff_toNat_lt.mpr (by rw [last]; omega)
  have bound := UInt64.lt_iff_toNat_lt.mp below
  rw [last] at bound
  have sequenceRoom := room.sequence
  refine ⟨?_,?_,by omega,by omega⟩
  · rw [opens.file,repaired,if_neg (by simp [leaveTail]),same]
  · rw [opens.options]
    exact ⟨rfl,rfl⟩

theorem putOperations_get (state : State) (tx_id : UInt64) (value : Bytes) :
    (apply_operations state (putOperations tx_id [] value))[([] : Bytes)]? = some value := by
  have other : change_key (putChange tx_id [] value).tx_id (putChange tx_id [] value).sequence ≠ [] := by
    intro empty
    have size := change_key_length (putChange tx_id [] value).tx_id (putChange tx_id [] value).sequence
    rw [empty] at size
    cases size
  simp only [putOperations,apply_operations,ChangeRecord.store,List.foldl_cons,List.foldl_nil,apply_operation,
    Std.ExtTreeMap.getElem?_insert,Std.LawfulEqOrd.compare_eq_iff_eq,other,if_false,if_true]

/-- A torn tail is not safe to leave. -/
theorem torn_tail_unsafe {file : Bytes} (sound : FileSound file) (room : HasRoom file) (tail : fragment file ≠ []) :
    ¬ UnrepairedSafe file := by
  intro safe
  obtain ⟨store,left,opened⟩ := sound_opens ["a.vstore"] leaveTail calm_faultless (.inr sound)
  obtain ⟨sameFile,unlimited,txRoom,sequenceRoom⟩ := opened_unrepaired sound room opened
  obtain ⟨header,has⟩ := sound.header
  have user : ensure_user_key [] = .ok () := rfl
  -- A put that changes the map, and one of zeros.
  have fresh : ∃ small : Bytes, small.length ≤ 1 ∧ store.state[([] : Bytes)]? ≠ some small := by
    by_cases empty : store.state[([] : Bytes)]? = some []
    · exact ⟨[1],le_rfl,by simp [empty]⟩
    · exact ⟨[],by simp,empty⟩
  obtain ⟨small,short,changes⟩ := fresh
  obtain ⟨t,behind,steps,-,file_t,size⟩ := @put_transaction_succeeds _ calm store [] small [] calm_faultless unlimited
    user (by simp; omega) txRoom sequenceRoom
  change t.file = store.file ++ ((putRecord store.next_tx_id store.next_sequence small).frame ++ behind) at file_t
  obtain ⟨z,behindZeros,stepsZeros,-,file_z,sizeZeros⟩ := @put_transaction_succeeds _ calm store []
    (List.replicate 251 0) [] calm_faultless unlimited user (by rw [List.length_replicate]; decide) txRoom sequenceRoom
  change z.file = store.file ++ ((putRecord store.next_tx_id store.next_sequence (List.replicate 251 0)).frame ++
    behindZeros) at file_z
  have calmly : ∀ value, ∀ call ∈ putCalls calm [] value, call.1.Faultless := by
    intro value call member
    simp only [putCalls,List.mem_cons,List.not_mem_nil,or_false] at member
    rcases member with rfl | rfl | rfl <;> exact calm_faultless
  have outcome := fun value => safe calm _ leaveTail store left (putCalls calm [] value) calm_faultless rfl opened
    (calmly value) calm ["a.vstore"] .default calm_faultless
  have torn := tail_swallows sound.torn tail store.next_tx_id store.next_sequence short size sizeZeros
  have long : ∀ appended, ∀ started header, Started (file ++ appended) started header → started = file ++ appended := by
    intro appended started header starts
    have enough := has.long
    rcases starts.2 with same | ⟨empty,-⟩
    · exact same
    · rw [(List.append_eq_nil_iff.mp empty).1] at enough
      simp [STORE_HEADER_LEN] at enough
  rcases torn with swallowed | refused
  · -- Everything behind the tail is lost, the put with it.
    obtain ⟨reopened,found,again,state⟩ := outcome small
    rw [steps] at again state
    obtain ⟨-,-,recovery,started,opens⟩ := open_ok again
    dsimp only [Session.store] at opens
    rw [file_t,sameFile] at opens
    have same := long _ _ _ opens.starts
    obtain ⟨acc,replayed,-,rfl⟩ := recover_ok_iff.mp opens.recovers
    have lost := (read_behind has.long ((putRecord store.next_tx_id store.next_sequence small).frame ++ behind)).1
    rw [logFraming.values_torn swallowed,List.append_nil] at lost
    rw [same,lost] at replayed
    have kept : reopened.state = store.state := by
      obtain ⟨-,-,first,begun,firstOpens⟩ := open_ok opened
      obtain ⟨stored,read,-⟩ := open_sound firstOpens (.inr sound)
      rw [opens.state,stored.state,read]
      exact (replay_ok replayed).state
    have applied : reopened.state = apply_operations store.state (putOperations store.next_tx_id [] small) := state
    have put_found := putOperations_get store.state store.next_tx_id small
    rw [← applied,kept] at put_found
    exact changes put_found
  · -- The scan ends in the zeros, and the file does not open.
    obtain ⟨reopened,found,again,-⟩ := outcome (List.replicate 251 0)
    rw [stepsZeros] at again
    obtain ⟨-,-,recovery,started,opens⟩ := open_ok again
    dsimp only [Session.store] at opens
    rw [file_z,sameFile] at opens
    have same := long _ _ _ opens.starts
    obtain ⟨acc,-,ends,-⟩ := recover_ok_iff.mp opens.recovers
    have left_over := (read_behind has.long
      ((putRecord store.next_tx_id store.next_sequence (List.replicate 251 0)).frame ++ behindZeros)).2
    rw [same,left_over] at ends
    exact refused ends

/-- Leaving the tail of a store's file alone is safe when there is none, and never else. -/
theorem unrepaired_safe_iff {file : Bytes} (sound : FileSound file) (room : HasRoom file) :
    UnrepairedSafe file ↔ fragment file = [] := by
  constructor
  · intro safe
    by_contra tail
    exact torn_tail_unsafe sound room tail safe
  · exact whole_file_safe sound

end

/-- A header and one byte of a record. -/
def oneByteTail : Bytes := @StoreHeader.encode crates zeroHeader ++ [86]

theorem one_byte_tail_sound : @FileSound crates oneByteTail ∧ @HasRoom crates oneByteTail ∧
    @fragment crates oneByteTail = [86] := by
  let _ := crates
  have body : oneByteTail.drop STORE_HEADER_LEN = [86] := drop_header (header_length zeroHeader) [86]
  have short : recordHead [86] = .torn := recordHead_torn_iff.mpr (.inl (by decide))
  have torn : logFraming.head [86] = .torn := short
  have none : records oneByteTail = [] := by rw [records,body,logFraming.values_torn torn]
  have left : fragment oneByteTail = [86] := by rw [fragment,body,logFraming.rest_torn torn]
  refine ⟨⟨⟨zeroHeader,(HasHeader.fresh _ _).append [86]⟩,?_,1,1,?_⟩,⟨?_,?_⟩,left⟩
  · rw [left]
    exact torn
  · rw [none]
    exact ⟨⟨_,rfl⟩,.nil,by simp,by decide,by simp⟩
  · simp [none]
  · rw [none]
    decide

theorem one_byte_tail_unsafe : @fragment crates oneByteTail = [86] ∧ ¬ @UnrepairedSafe crates oneByteTail := by
  obtain ⟨sound,room,left⟩ := one_byte_tail_sound
  refine ⟨left,?_⟩
  intro safe
  have whole := (@unrepaired_safe_iff crates oneByteTail sound room).mp safe
  rw [left] at whole
  cases whole

def oneDelete : List (Io × Event) := [(calm,.Begin),(calm,.Delete [107]),(calm,.Commit)]

/-- The file is accepted and opened without repair, and a key is deleted. The
    commit returns `Ok`, but the file does not open any more. -/
theorem one_byte_tail_lost : (∃ recovery, @recover crates oneByteTail = .ok recovery ∧
      recovery.valid_end < oneByteTail.length) ∧ ∃ store left,
    @open_with_options crates calm ["a.vstore"] leaveTail oneByteTail = .ok store left ∧
    (@Run.steps crates ⟨.Idle store,[]⟩ oneDelete).history.length = 1 ∧
    ∀ options reopened found, @open_with_options crates calm ["a.vstore"] options
      (@Run.steps crates ⟨.Idle store,[]⟩ oneDelete).session.store.file ≠
        .ok reopened found := by
  have evaluated : ((@recover crates oneByteTail).toOption.any (fun recovery => decide (recovery.valid_end < oneByteTail.length)) &&
      passes (@open_with_options crates calm ["a.vstore"] leaveTail oneByteTail) (fun store _ =>
        let run := @Run.steps crates ⟨.Idle store,[]⟩ oneDelete
        decide (run.history.length = 1) && decide (run.session.store.file ≠ []) &&
          !(@recover crates run.session.store.file).toBool)) = true := by decide +kernel
  let _ := crates
  rw [Bool.and_eq_true] at evaluated
  obtain ⟨accepted,used⟩ := evaluated
  constructor
  · obtain ⟨recovery,recovered,short⟩ := any_ok_iff.mp accepted
    exact ⟨recovery,recovered,of_decide_eq_true short⟩
  · obtain ⟨store,left,opened,used⟩ := passes_iff.mp used
    simp only [Bool.and_eq_true,decide_eq_true_eq,Bool.not_eq_true'] at used
    obtain ⟨⟨committed,some_bytes⟩,refused⟩ := used
    refine ⟨store,left,opened,committed,?_⟩
    intro options reopened found again
    obtain ⟨-,-,recovery,started,opens⟩ := @open_ok crates _ _ _ _ _ _ again
    have recovers := opens.recovers
    rcases opens.starts.2 with same | ⟨empty,-⟩
    · rw [same] at recovers
      rw [recovers] at refused
      cases refused
    · exact some_bytes empty

end VoodooStore
