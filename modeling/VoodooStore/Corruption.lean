import VoodooStore.Unrepaired

/-!
# Damage to one byte

One byte of a record is replaced. Recovery trusts the length field before it
can check the checksum, so it depends on that field what it makes of the rest:
a changed byte elsewhere is always reported (`damaged_bad`), while a changed
length may reach past the end of the file, and then everything from the
damaged record on counts as a torn tail. `damage_outcome` tells the cases apart.
-/
namespace VoodooStore
open Frames
set_option linter.unusedSimpArgs false

/-- The checksum tells apart what differs in one byte. -/
def DetectsByte [Hashes] : Prop :=
  ∀ (front back : Bytes) (a b : UInt8), a ≠ b → Hashes.crc32 (front ++ a :: back) ≠ Hashes.crc32 (front ++ b :: back)

theorem crates_detect : @DetectsByte crates := fun front back _ _ changed => Crc32.crc32_byte_ne front back changed

/-- The bytes of a record that say how long its payload is. -/
def InLengthField (j : Nat) : Prop := 21 ≤ j ∧ j < 25

instance (j : Nat) : Decidable (InLengthField j) := inferInstanceAs (Decidable (_ ∧ _))

theorem set_splits {bytes : Bytes} {j : Nat} {byte : UInt8} (inside : j < bytes.length) (other : bytes[j]? ≠ some byte) :
    ∃ front a back, bytes = front ++ a :: back ∧ front.length = j ∧ a ≠ byte ∧ bytes.set j byte = front ++ byte :: back := by
  refine ⟨bytes.take j,bytes[j],bytes.drop (j+1),?_,?_,?_,?_⟩
  · rw [List.cons_getElem_drop_succ,List.take_append_drop]
  · rw [List.length_take]
    omega
  · intro same
    rw [List.getElem?_eq_getElem inside,same] at other
    exact other rfl
  · rw [List.set_eq_take_append_cons_drop,if_pos inside]

/-- A piece of a list that ends before a changed byte, or starts behind it. -/
theorem slice_set {bytes : Bytes} {j start count : Nat} {byte : UInt8} (outside : j < start ∨ start + count ≤ j) :
    ((bytes.set j byte).drop start).take count = (bytes.drop start).take count := by
  refine List.ext_getElem? ?_
  intro i
  by_cases inside : i < count
  · rw [List.getElem?_take_of_lt inside,List.getElem?_take_of_lt inside,List.getElem?_drop,List.getElem?_drop,
      List.getElem?_set_ne (by omega)]
  · rw [List.getElem?_take_eq_none (by omega),List.getElem?_take_eq_none (by omega)]

section
variable [Hashes]

/-- A record with a changed byte is no record of the same length. -/
theorem damaged_decode {r : LogRecord} {j : Nat} {byte : UInt8} (detects : DetectsByte) (inside : j < r.frame.length)
    (other : r.frame[j]? ≠ some byte) : ∃ error, LogRecord.decode (r.frame.set j byte) = .error error := by
  cases decoded : LogRecord.decode (r.frame.set j byte) with
  | error error => exact ⟨error,rfl⟩
  | ok found =>
    obtain ⟨-,spelled⟩ := decode_canonical decoded
    have size := congrArg List.length spelled
    rw [List.length_set,frame_length,frame_length] at size
    have bodies : r.body.length = found.body.length := by rw [body_length,body_length]; omega
    exfalso
    by_cases covered : j < r.body.length
    · -- The checksum is that of another body.
      have otherBody : r.body[j]? ≠ some byte := by
        rw [LogRecord.frame,List.getElem?_append_left covered] at other
        exact other
      rw [LogRecord.frame,List.set_append_left _ _ covered,LogRecord.frame] at spelled
      obtain ⟨body,check⟩ := List.append_inj spelled (by rw [List.length_set,bodies])
      obtain ⟨front,a,back,split,-,changed,set⟩ := set_splits covered otherBody
      have sums : checksum r.body = checksum found.body := by
        have values := congrArg UInt32.from_le_bytes check
        rwa [u32_from_to_le,u32_from_to_le] at values
      rw [← body,set,split] at sums
      exact detects front back a byte changed sums
    · -- The body is the same, but not the checksum.
      have late : r.body.length ≤ j := by omega
      rw [LogRecord.frame,List.set_append_right _ _ late,LogRecord.frame] at spelled
      obtain ⟨body,check⟩ := List.append_inj spelled bodies
      rw [LogRecord.frame,List.length_append] at inside
      rw [LogRecord.frame,List.getElem?_append_right late] at other
      rw [← body] at check
      have kept := congrArg (fun bytes : Bytes => bytes[j - r.body.length]?) check
      rw [List.getElem?_set_self (by omega)] at kept
      exact other kept.symm

/-- What the scan meets at a damaged record whose length field is as it was. -/
theorem damaged_bad {r : LogRecord} {j : Nat} {byte : UInt8} (follows : Bytes) (detects : DetectsByte) (fits : r.Fits)
    (inside : j < r.frame.length) (other : r.frame[j]? ≠ some byte) (elsewhere : ¬ InLengthField j) :
    ∃ error, recordHead (r.frame.set j byte ++ follows) = .bad error := by
  have size := frame_length r
  have long : HEADER_LEN ≤ (r.frame.set j byte ++ follows).length := by
    rw [List.length_append,List.length_set,size,HEADER_LEN]
    omega
  have found := record_len_long long
  rw [recordHead,if_neg (by omega)]
  by_cases magic : (r.frame.set j byte ++ follows).take 4 = MAGIC
  · have same : ((r.frame.set j byte ++ follows).drop 21).take 4 = ((r.frame ++ follows).drop 21).take 4 := by
      rw [← List.set_append_left _ _ inside]
      exact slice_set (by unfold InLengthField at elsewhere; omega)
    have whole := record_len_frame fits follows
    rw [record_len_long (by rw [List.length_append,size,HEADER_LEN]; omega),refuse_ok_iff] at whole
    rw [if_neg (not_not.mpr magic),same,whole.2] at found
    obtain ⟨error,rejected⟩ := damaged_decode detects inside other
    rw [found]
    dsimp only
    have taken : (r.frame.set j byte ++ follows).take r.frame.length = r.frame.set j byte :=
      List.take_left' (List.length_set)
    rw [if_neg (by rw [List.length_append,List.length_set]; omega),taken,rejected]
    exact ⟨_,rfl⟩
  · rw [if_pos magic] at found
    rw [found]
    exact ⟨_,rfl⟩

/-- The file around one of its records. -/
theorem around_record {file : Bytes} {before after : List LogRecord} {r : LogRecord} (header : STORE_HEADER_LEN ≤ file.length)
    (log : records file = before ++ r :: after) : ∃ front : Bytes, front.length = STORE_HEADER_LEN ∧
      file = front ++ (frames before ++ (r.frame ++ (frames after ++ fragment file))) := by
  refine ⟨file.take STORE_HEADER_LEN,by rw [List.length_take]; omega,?_⟩
  have body := frames_fragment file
  rw [log] at body
  conv => lhs; rw [← List.take_append_drop STORE_HEADER_LEN file,← body]
  simp [frames,logFraming]

/-- One byte of a record in an accepted log is replaced, with another record
    behind it. The damage is reported if it spares the length field, or if what
    the new length delimits is there and is no record. If the new length
    reaches past the end of the file, recovery succeeds and takes all that
    follows for a torn tail. Else it reads a record that was never written. -/
theorem damage_outcome {file : Bytes} {recovery : Recovery} {before after : List LogRecord} {r next : LogRecord} {j : Nat}
    {byte : UInt8} (detects : DetectsByte) (header : STORE_HEADER_LEN ≤ file.length)
    (accepted : recover file = .ok recovery) (log : records file = before ++ r :: next :: after)
    (inside : j < r.frame.length) (other : r.frame[j]? ≠ some byte) :
    let changed := file.set (endOf before + j) byte
    let remaining := changed.drop (endOf before)
    (¬ InLengthField j ∨ (∃ n error, encoded_record_len_from_prefix remaining = .ok n ∧ n ≤ remaining.length ∧
        LogRecord.decode (remaining.take n) = .error error) →
      ∃ error, recover changed = .error error) ∧
    ((∃ n, encoded_record_len_from_prefix remaining = .ok n ∧ remaining.length < n) →
      ∃ found, recover changed = .ok found ∧ found.valid_end = endOf before ∧ found.valid_end < changed.length) ∧
    (∀ n wrong, encoded_record_len_from_prefix remaining = .ok n → n ≤ remaining.length →
      LogRecord.decode (remaining.take n) = .ok wrong → ∃ later, records changed = before ++ wrong :: later) := by
  intro changed remaining
  obtain ⟨front,size,whole⟩ := around_record header log
  have fits := records_fit file
  rw [log] at fits
  have beforeFits : ∀ t ∈ before, t.Fits := fun t member => fits t (by simp [member])
  have damaged : changed = front ++ (frames before ++ (r.frame.set j byte ++ (frames (next :: after) ++ fragment file))) := by
    show file.set _ _ = _
    conv => lhs; rw [whole]
    have position : endOf before + j - front.length - (frames before).length = j := by rw [endOf,size]; omega
    rw [List.set_append_right _ _ (by rw [endOf,size]; omega),List.set_append_right _ _ (by rw [endOf,size]; omega),
      position,List.set_append_left _ _ inside]
  generalize frames (next :: after) ++ fragment file = follows at damaged
  have rest : remaining = r.frame.set j byte ++ follows := by
    show changed.drop _ = _
    rw [damaged,endOf,← size,← List.drop_drop,List.drop_left,List.drop_left]
  have body : changed.drop STORE_HEADER_LEN = frames before ++ remaining := by rw [damaged,drop_header size,rest]
  have read : records changed = before ++ logFraming.values remaining ∧ fragment changed = logFraming.rest remaining := by
    constructor
    · rw [records,body]
      exact logFraming.values_encodeAll beforeFits _
    · rw [fragment,body]
      exact logFraming.rest_encodeAll beforeFits _
  have long : HEADER_LEN ≤ remaining.length := by
    rw [rest,List.length_append,List.length_set,frame_length,HEADER_LEN]
    omega
  refine ⟨?_,?_,?_⟩
  · intro noticed
    have bad : ∃ error, recordHead remaining = .bad error := by
      rcases noticed with elsewhere | ⟨n,error,found,present,rejected⟩
      · rw [rest]
        exact damaged_bad follows detects (fits r (by simp)) inside other elsewhere
      · rw [recordHead,if_neg (by omega),found]
        dsimp only
        rw [if_neg (by omega),rejected]
        exact ⟨_,rfl⟩
    obtain ⟨error,bad⟩ := bad
    cases recovered : recover changed with
    | error error => exact ⟨error,rfl⟩
    | ok found =>
      obtain ⟨acc,-,torn,-⟩ := recover_ok_iff.mp recovered
      rw [read.2] at torn
      exact absurd torn (refused_bad bad)
  · rintro ⟨n,found,short⟩
    have torn : recordHead remaining = .torn := recordHead_short found short
    obtain ⟨acc,replayed,-,-⟩ := recover_ok_iff.mp accepted
    rw [log] at replayed
    obtain ⟨early,replays⟩ := foldlM_front replayed (List.prefix_append before _)
    have nothing : logFraming.values remaining = [] := logFraming.values_torn torn
    have all : logFraming.rest remaining = remaining := logFraming.rest_torn torn
    rw [nothing,List.append_nil,all] at read
    refine ⟨early.report (endOf before),recover_ok_iff.mpr ⟨early,?_,?_,?_⟩,rfl,?_⟩
    · rw [read.1]
      exact replays
    · rw [read.2]
      exact torn
    · rw [read.1]
      rfl
    · show endOf before < changed.length
      have length := congrArg List.length body
      rw [List.length_drop,List.length_append] at length
      rw [HEADER_LEN] at long
      rw [endOf]
      omega
  · intro n wrong found present decoded
    have frame : recordHead remaining = .frame wrong := by
      rw [recordHead,if_neg (by omega),found]
      dsimp only
      rw [if_neg (by omega),decoded]
    obtain ⟨wrongFits,later,split⟩ := of_recordHead frame
    refine ⟨logFraming.values later,?_⟩
    rw [read.1,← split]
    exact congrArg (before ++ ·) (logFraming.values_frame wrongFits later)

end

/-- Two empty transactions. -/
def twoCommits : Bytes := @StoreHeader.encode crates zeroHeader ++ @frames crates [⟨.Commit,1,1,[]⟩,⟨.Commit,2,2,[]⟩]

/-- A changed transaction number is reported. -/
theorem damaged_number_reported : ∃ error, @recover crates (twoCommits.set 69 9) = .error error := by
  let _ := crates
  have fits : ∀ r ∈ [LogRecord.mk .Commit 1 1 [],⟨.Commit,2,2,[]⟩], r.Fits := by decide
  have empty : logFraming.head [] = .torn := recordHead_nil
  have body : twoCommits.drop STORE_HEADER_LEN = frames [⟨.Commit,1,1,[]⟩,⟨.Commit,2,2,[]⟩] :=
    drop_header (header_length zeroHeader) _
  have log : records twoCommits = [] ++ ⟨.Commit,1,1,[]⟩ :: ⟨.Commit,2,2,[]⟩ :: [] := by
    have read := logFraming.values_written fits empty
    rw [List.append_nil] at read
    rw [records,body]
    exact read
  have replayed : ∃ acc, replay [⟨.Commit,1,1,[]⟩,⟨.Commit,2,2,[]⟩] = .ok acc := ⟨_,rfl⟩
  obtain ⟨acc,replays⟩ := replayed
  have accepted := recover_written (header_length zeroHeader) fits recordHead_nil replays
  rw [List.append_nil] at accepted
  have long : STORE_HEADER_LEN ≤ twoCommits.length := by
    rw [twoCommits,List.length_append,header_length]
    omega
  have outcome := @damage_outcome crates twoCommits _ [] [] ⟨.Commit,1,1,[]⟩ ⟨.Commit,2,2,[]⟩ 5 9 crates_detect long accepted
    log (by decide) (by decide)
  exact outcome.1 (.inl (by decide))

/-- The bytes of a store after one transaction, which holds three records. -/
def deletedFile : Bytes :=
  match @open_with_options crates calm ["a.vstore"] .default [] with
  | .ok store _ => (@Run.steps crates ⟨.Idle store,[]⟩ oneDelete).session.store.file
  | .error _ _ => []

set_option maxRecDepth 20000 in
/-- The topmost byte of the first record's length is replaced. Recovery
    succeeds, and would have the file cut off behind its header. -/
theorem damaged_length_truncates : ∃ store left,
    @open_with_options crates calm ["a.vstore"] .default [] = .ok store left ∧
    deletedFile = (@Run.steps crates ⟨.Idle store,[]⟩ oneDelete).session.store.file ∧
    (∃ recovery, @recover crates deletedFile = .ok recovery ∧ recovery.records = 3 ∧
      recovery.valid_end = deletedFile.length) ∧
    deletedFile[88]? ≠ some 1 ∧ ∃ recovery, @recover crates (deletedFile.set 88 1) = .ok recovery ∧
      recovery.valid_end = STORE_HEADER_LEN ∧ recovery.valid_end < (deletedFile.set 88 1).length := by
  have original : (match @recover crates deletedFile with
      | .ok recovery => decide (recovery.records = 3) && decide (recovery.valid_end = deletedFile.length)
      | .error _ => false) = true := by decide +kernel
  have different : deletedFile[88]? ≠ some 1 := by decide +kernel
  have damaged : (match @recover crates (deletedFile.set 88 1) with
      | .ok recovery => decide (recovery.valid_end = STORE_HEADER_LEN) &&
          decide (recovery.valid_end < (deletedFile.set 88 1).length)
      | .error _ => false) = true := by decide +kernel
  obtain ⟨store,left,opened⟩ := @sound_opens crates calm [] ["a.vstore"] .default calm_faultless (.inl rfl)
  refine ⟨store,left,opened,by rw [deletedFile,opened],?_,different,?_⟩
  · cases recovered : @recover crates deletedFile with
    | error e => rw [recovered] at original; cases original
    | ok recovery =>
      rw [recovered] at original
      simp only [Bool.and_eq_true,decide_eq_true_eq] at original
      exact ⟨recovery,rfl,original.1,original.2⟩
  · cases recovered : @recover crates (deletedFile.set 88 1) with
    | error e => rw [recovered] at damaged; cases damaged
    | ok recovery =>
      rw [recovered] at damaged
      simp only [Bool.and_eq_true,decide_eq_true_eq] at damaged
      exact ⟨recovery,rfl,damaged.1,damaged.2⟩

end VoodooStore
