import VoodooStore.Activation

/-!
# The scanners of the log

The loop over the records of a log is there three times: in `recover`, in
`log_high_water` and in `inspect_log`. What recovery accepts, the second reads
with the same result. The third takes no torn tail and no file without a header;
on any other file it agrees, and it finds the last record.
-/
namespace VoodooStore
open Effects Frames
set_option linter.unusedSimpArgs false

/-- The last sequence number is the highest, as recovery refuses to go back. -/
theorem last_is_max {rs : List LogRecord} (ordered : rs.Pairwise SequenceBefore) : lastSequence rs = maxSequence rs := by
  refine UInt64.le_antisymm ?_ ?_
  · rcases List.eq_nil_or_concat rs with rfl | ⟨front,last,rfl⟩
    · exact UInt64.le_refl _
    · rw [List.concat_eq_append,lastSequence_snoc]
      exact UInt64.le_iff_toNat_le.mpr (sequence_le_max (by simp))
  · rw [← UInt64.not_lt]
    intro above
    have least : 0 < maxSequence rs := UInt64.lt_of_le_of_lt UInt64.zero_le above
    -- A bound above all numbers would be above their maximum.
    obtain ⟨r,member,reached⟩ : ∃ r ∈ rs, maxSequence rs ≤ r.sequence := by
      by_contra none_reached
      have below : maxSequence rs < maxSequence rs := by
        refine foldl_max_lt least ?_
        intro t listed
        obtain ⟨r,member,rfl⟩ := List.mem_map.mp listed
        exact UInt64.not_le.mp (fun reached => none_reached ⟨r,member,reached⟩)
      exact UInt64.lt_irrefl _ below
    exact UInt64.lt_irrefl _ (UInt64.lt_of_le_of_lt (UInt64.le_trans reached (ordered_le_last ordered member)) above)

section
variable [Hashes]

theorem high_water_torn {remaining : Bytes} {a b : UInt64} (torn : recordHead remaining = .torn) :
    high_water remaining a b = .ok (a,b) := by
  rw [high_water]
  rcases recordHead_torn_iff.mp torn with short | ⟨record_len,found,short⟩
  · rw [if_pos short]
  · split
    · rfl
    · split
      · rfl
      · rename_i refused
        rw [found] at refused
        cases refused
      · rename_i again
        rw [found] at again
        cases again
        rw [if_pos short]

theorem high_water_frame {r : LogRecord} (fits : r.Fits) (follows : Bytes) (a b : UInt64) :
    high_water (r.frame ++ follows) a b = high_water follows (max a r.tx_id) (max b r.sequence) := by
  have size : (r.frame ++ follows).length = 29 + r.payload.length + follows.length := by simp
  have header : HEADER_LEN = 25 := rfl
  rw [high_water,if_neg (by omega)]
  split
  · rename_i refused
    rw [record_len_frame fits] at refused
    cases refused
  · rename_i refused
    rw [record_len_frame fits] at refused
    cases refused
  · rename_i record_len found
    rw [record_len_frame fits] at found
    cases found
    rw [if_neg (by rw [frame_length]; omega),List.take_left,decode_frame fits,mapError_ok,ok_bind,List.drop_left]

/-- A log of whole records in front of a torn tail is read to its end. -/
theorem high_water_frames {rs : List LogRecord} {torn : Bytes} (fits : ∀ r ∈ rs, r.Fits) (tail : recordHead torn = .torn) (a b : UInt64) :
    high_water (frames rs ++ torn) a b =
      .ok ((rs.map LogRecord.tx_id).foldl max a,(rs.map LogRecord.sequence).foldl max b) := by
  induction rs generalizing a b with
  | nil => exact high_water_torn tail
  | cons r rs ih =>
    have spelled : frames (r :: rs) ++ torn = r.frame ++ (frames rs ++ torn) := List.append_assoc ..
    rw [spelled,high_water_frame (fits r (by simp))]
    exact ih (fun other member => fits other (by simp [member])) _ _

/-- What recovery accepts, in terms of the records it went through. -/
theorem recovered_numbers {file : Bytes} {recovery : Recovery} (accepted : recover file = .ok recovery) :
    recordHead (fragment file) = .torn ∧ recovery.max_tx_id = maxTxId (records file) ∧
      recovery.max_sequence = maxSequence (records file) ∧ recovery.records.toNat = (records file).length := by
  obtain ⟨acc,replayed,torn,rfl⟩ := recover_ok_iff.mp accepted
  have known := replay_ok replayed
  exact ⟨torn,known.txId,known.sequence.trans (last_is_max known.ordered),known.count⟩

/-- The scanners agree on a file: on its highest numbers if the calls of the system do
    not fail, and on its last record where nothing follows it. -/
theorem log_scanners_agree {file : Bytes} {recovery : Recovery} (accepted : recover file = .ok recovery) {path : Path} :
    (∀ (io : GenerationIo) (disk : Disk), io.read_log path = none → disk path = some file →
      log_high_water io path disk = .ok (recovery.max_tx_id,recovery.max_sequence) disk) ∧
    ∀ (io : ActivationIo) (trail : Trail), io.fails (.inspect path) = none → trail.disk path = some file →
      (file.length < STORE_HEADER_LEN → inspect_log io path trail = .error .TornStore trail) ∧
      (STORE_HEADER_LEN ≤ file.length → ¬ recovery.valid_end < file.length →
        inspect_log io path trail = .ok ⟨recovery.max_tx_id,recovery.max_sequence,(records file).getLast?⟩ trail) := by
  obtain ⟨torn,highest_tx,highest,-⟩ := recovered_numbers accepted
  constructor
  · intro io disk works there
    unfold log_high_water
    rw [on_path_bind_ok]
    refine ⟨works,?_⟩
    rw [get_bind,find_ok.mpr there,mapError_ok,bind_of_ok (lift_ok _ _)]
    rw [← frames_fragment file,high_water_frames (records_fit file) torn,highest_tx,highest]
    rfl
  · intro io trail works there
    unfold inspect_log
    rw [works]
    have opened : (on_path none ActivationError.Io : EStateM ActivationError Trail Unit) trail = .ok () trail := rfl
    rw [bind_of_ok opened,get_bind,find_ok.mpr there,mapError_ok,bind_of_ok (lift_ok _ _)]
    constructor
    · intro short
      rw [if_pos short]
      rfl
    · intro long ended
      rw [if_neg (by omega)]
      have whole : fragment file = [] := by
        obtain ⟨acc,-,-,rfl⟩ := recover_ok_iff.mp accepted
        have size := congrArg List.length (frames_fragment file)
        rw [List.length_append,List.length_drop] at size
        have stops : ¬ STORE_HEADER_LEN + (frames (records file)).length < file.length := ended
        exact List.length_eq_zero_iff.mp (by omega)
      have body := frames_fragment file
      rw [whole,List.append_nil] at body
      rw [← body,inspect_frames (records_fit file),foldl_note,Option.or_none,highest_tx,highest]
      rfl

end

/-- A header that nobody reads here, and a transaction that deletes one key. -/
def deletedOnce : Bytes := List.replicate 64 0 ++ @frames crates [⟨.Delete,3,1,[1,0,0,0,107]⟩,⟨.Commit,3,2,[]⟩]

set_option maxRecDepth 20000 in
theorem scanners_agree_on_deletion : ∃ recovery, @recover crates deletedOnce = .ok recovery ∧ recovery.max_tx_id = 3 ∧
    recovery.max_sequence = 2 ∧
    @log_high_water crates calmGeneration ["a.vstore"] (fun _ => some deletedOnce) = .ok (3,2) (fun _ => some deletedOnce) ∧
    @inspect_log crates calmActivation ["a.vstore"] ⟨fun _ => some deletedOnce,[]⟩ =
      .ok ⟨3,2,(@records crates deletedOnce).getLast?⟩ ⟨fun _ => some deletedOnce,[]⟩ := by
  have evaluated : (match @recover crates deletedOnce with
      | .ok recovery => decide (recovery.max_tx_id = 3 ∧ recovery.max_sequence = 2 ∧ ¬ recovery.valid_end < deletedOnce.length ∧
          STORE_HEADER_LEN ≤ deletedOnce.length)
      | .error _ => false) = true := by decide +kernel
  cases accepted : @recover crates deletedOnce with
  | error e =>
    rw [accepted] at evaluated
    cases evaluated
  | ok recovery =>
    rw [accepted] at evaluated
    obtain ⟨tx,sequence,ended,long⟩ := of_decide_eq_true evaluated
    obtain ⟨highest,inspected⟩ := @log_scanners_agree crates _ _ accepted ["a.vstore"]
    have read := highest calmGeneration (fun _ => some deletedOnce) rfl rfl
    have found := (inspected calmActivation ⟨fun _ => some deletedOnce,[]⟩ rfl rfl).2 long ended
    rw [tx,sequence] at read found
    exact ⟨recovery,rfl,tx,sequence,read,found⟩

set_option maxRecDepth 20000 in
/-- Recovery takes a file without a header for an empty log, and the inspection does not. -/
theorem empty_file_not_inspected : ∃ recovery, @recover crates [] = .ok recovery ∧ ¬ recovery.valid_end < ([] : Bytes).length ∧
    @inspect_log crates calmActivation ["a.vstore"] ⟨fun _ => some [],[]⟩ = .error .TornStore ⟨fun _ => some [],[]⟩ := by
  have evaluated : (match @recover crates [] with
      | .ok _ => true
      | .error _ => false) = true := by decide +kernel
  cases accepted : @recover crates [] with
  | error e =>
    rw [accepted] at evaluated
    cases evaluated
  | ok recovery => exact ⟨recovery,rfl,by simp,rfl⟩

end VoodooStore
