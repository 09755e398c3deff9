import VoodooStore.Operation

/-!
# Recovery

The scan that rebuilds a store from its file. The loop reads records one after
another, stops at a torn tail, and refuses what breaks the rules of the log.
`recover_eq` says that it folds the loop body over the records that the file
holds (`records`) and then looks at what follows them (`fragment`).
-/
namespace VoodooStore
open Frames
set_option linter.unusedSimpArgs false

/-- The variables of the recovery loop, without the offset. -/
structure Progress where
  state : State
  pending : Std.ExtTreeMap UInt64 (List Operation) compare
  committed : Std.ExtTreeSet UInt64 compare
  max_tx_id : UInt64
  max_sequence : UInt64
  records : UInt64

def Progress.start : Progress := ⟨∅,∅,∅,0,0,0⟩

structure Recovery where
  state : State
  max_tx_id : UInt64
  max_sequence : UInt64
  valid_end : Nat
  records : UInt64
  committed_transactions : Nat
  pending_transactions : Nat
  deriving DecidableEq

/-- `pending.entry(tx_id).or_default().push(operation)` -/
def Progress.push (acc : Progress) (tx_id : UInt64) (operation : Operation) : Progress :=
  { acc with pending := acc.pending.insert tx_id (acc.pending.getD tx_id [] ++ [operation]) }

/-- The part of the loop body that follows the decoding of a record. -/
def recover_record (acc : Progress) (record : LogRecord) : Except EngineError Progress :=
  if record.sequence ≤ acc.max_sequence ∧ acc.max_sequence ≠ 0 then
    .error (.NonMonotonicSequence acc.max_sequence record.sequence)
  else if record.tx_id ∈ acc.committed then .error (.RecordAfterCommit record.tx_id)
  else match acc.records.checked_add 1 with
  | none => .error .CounterExhausted
  | some records =>
    let acc := { acc with
      max_sequence := record.sequence
      max_tx_id := max acc.max_tx_id record.tx_id
      records := records }
    match record.kind with
    | .Put => do return acc.push record.tx_id (← decode_put record.payload)
    | .Delete => do return acc.push record.tx_id (← decode_delete record.payload)
    | .Commit =>
      .ok { acc with
        state := match acc.pending[record.tx_id]? with
          | some operations => apply_operations acc.state operations
          | none => acc.state
        pending := acc.pending.erase record.tx_id
        committed := acc.committed.insert record.tx_id }

section
variable [Hashes]

def recover_loop (bytes : Bytes) (offset : Nat) (acc : Progress) : Except EngineError (Progress × Nat) :=
  if _inside : offset < bytes.length then do
    let remaining ← slice bytes offset bytes.length
    if remaining.length < HEADER_LEN then .ok (acc,offset) else
    match _found : encoded_record_len_from_prefix remaining with
    | .error .TruncatedRecord => .ok (acc,offset)
    | .error error => .error (.Log error)
    | .ok record_len =>
      if remaining.length < record_len then .ok (acc,offset) else do
      let record ← (LogRecord.decode (← slice remaining 0 record_len)).mapError .Log
      recover_loop bytes (offset + record_len) (← recover_record acc record)
  else .ok (acc,offset)
termination_by bytes.length - offset
decreasing_by
  have positive := record_len_ge _found
  omega

def recover (file : Bytes) : Except EngineError Recovery := do
  let bytes := file.drop STORE_HEADER_LEN
  let (acc,offset) ← recover_loop bytes 0 .start
  return {
    state := acc.state
    max_tx_id := acc.max_tx_id
    max_sequence := acc.max_sequence
    valid_end := STORE_HEADER_LEN + offset
    records := acc.records
    committed_transactions := acc.committed.size
    pending_transactions := acc.pending.size }

/-! ## The records of a file -/

/-- What the loop finds at the front of the bytes that remain. -/
def recordHead (remaining : Bytes) : Head LogRecord EngineError :=
  if remaining.length < HEADER_LEN then .torn else
  match encoded_record_len_from_prefix remaining with
  | .error .TruncatedRecord => .torn
  | .error error => .bad (.Log error)
  | .ok record_len =>
    if remaining.length < record_len then .torn else
    match LogRecord.decode (remaining.take record_len) with
    | .error error => .bad (.Log error)
    | .ok record => .frame record

/-- An incomplete record is torn. -/
theorem recordHead_short {remaining : Bytes} {n : Nat} (found : encoded_record_len_from_prefix remaining = .ok n)
    (short : remaining.length < n) : recordHead remaining = .torn := by
  unfold recordHead
  split
  · rfl
  · simp [found,short]

/-- What makes the front of a stream torn: no room for a header, or a header
    that announces more than there is. -/
theorem recordHead_torn_iff {remaining : Bytes} :
    recordHead remaining = .torn ↔ remaining.length < HEADER_LEN ∨
      ∃ n, encoded_record_len_from_prefix remaining = .ok n ∧ remaining.length < n := by
  constructor
  · intro torn
    unfold recordHead at torn
    split at torn
    · exact .inl ‹_›
    · rename_i long
      right
      split at torn
      · rename_i refused
        rw [record_len_long (by omega)] at refused
        split at refused <;> cases refused
      · cases torn
      · rename_i n found
        split at torn
        · exact ⟨n,found,‹_›⟩
        · split at torn <;> cases torn
  · rintro (short | ⟨n,found,short⟩)
    · simp [recordHead,short]
    · exact recordHead_short found short

theorem recordHead_frame {record : LogRecord} (fits : record.Fits) (follows : Bytes) :
    recordHead (record.frame ++ follows) = .frame record := by
  have long : ¬ (record.frame ++ follows).length < HEADER_LEN := by simp [HEADER_LEN]; omega
  have whole : ¬ (record.frame ++ follows).length < record.frame.length := by simp
  simp only [recordHead,long,if_false,record_len_frame fits,whole,List.take_left,decode_frame fits]

theorem of_recordHead {remaining : Bytes} {record : LogRecord} (front : recordHead remaining = .frame record) :
    record.Fits ∧ record.frame <+: remaining := by
  unfold recordHead at front
  split at front
  · cases front
  · split at front
    · cases front
    · cases front
    · split at front
      · cases front
      · split at front
        · cases front
        · rename_i decoded
          cases front
          obtain ⟨fits,taken⟩ := decode_canonical decoded
          exact ⟨fits,taken ▸ List.take_prefix _ _⟩

theorem recordHead_cut {record : LogRecord} {piece : Bytes} (fits : record.Fits) (cut : piece <+: record.frame)
    (proper : piece ≠ record.frame) : recordHead piece = .torn := by
  by_cases header : HEADER_LEN ≤ piece.length
  · have found := record_len_frame fits []
    rw [List.append_nil,← record_len_cut cut header] at found
    refine recordHead_short found ?_
    have shorter := cut.length_le
    have different : piece.length ≠ record.frame.length := fun same => proper (cut.eq_of_length same)
    omega
  · exact recordHead_torn_iff.mpr (.inl (by omega))

theorem recordHead_torn_cut {remaining piece : Bytes} (torn : recordHead remaining = .torn)
    (cut : piece <+: remaining) : recordHead piece = .torn := by
  have shorter := cut.length_le
  by_cases header : HEADER_LEN ≤ piece.length
  · rcases recordHead_torn_iff.mp torn with short | ⟨n,found,short⟩
    · omega
    · rw [← record_len_cut cut header] at found
      exact recordHead_short found (by omega)
  · exact recordHead_torn_iff.mpr (.inl (by omega))

/-- The records of a log as frames of a byte stream. -/
def logFraming : Framing UInt8 LogRecord EngineError where
  Valid := LogRecord.Fits
  encode := LogRecord.frame
  head := recordHead
  encode_ne_nil := by
    intro record _ empty
    have size := frame_length record
    rw [empty] at size
    simp at size
    omega
  head_encode := fun follows fits => recordHead_frame fits follows
  of_head := of_recordHead
  head_cut := recordHead_cut
  head_torn := recordHead_torn_cut

/-- The complete records of a file. -/
def records (file : Bytes) : List LogRecord := logFraming.values (file.drop STORE_HEADER_LEN)

/-- What a file holds after its last complete record. -/
def fragment (file : Bytes) : Bytes := logFraming.rest (file.drop STORE_HEADER_LEN)

/-- The bytes of a list of records. -/
def frames (rs : List LogRecord) : Bytes := logFraming.encodeAll rs

/-- One turn of the loop. -/
theorem recover_loop_step (bytes : Bytes) (offset : Nat) (acc : Progress) :
    recover_loop bytes offset acc = match recordHead (bytes.drop offset) with
      | .torn => .ok (acc,offset)
      | .bad error => .error error
      | .frame record =>
        recover_record acc record >>= fun next => recover_loop bytes (offset + record.frame.length) next := by
  rw [recover_loop]
  by_cases inside : offset < bytes.length
  · have remaining : (slice bytes offset bytes.length : Except EngineError Bytes) = .ok (bytes.drop offset) := by
      rw [slice_ok (by omega) le_rfl]
      simp
    rw [dif_pos inside,remaining,ok_bind]
    unfold recordHead
    split
    · rfl
    · split
      · rename_i found
        simp only [found]
      · rename_i error other found
        simp only [found]
      · rename_i record_len found
        simp only [found]
        split
        · rfl
        · rename_i whole
          have taken : (slice (bytes.drop offset) 0 record_len : Except EngineError Bytes) =
              .ok ((bytes.drop offset).take record_len) := by
            rw [slice_ok (by omega) (by omega)]
            simp
          rw [taken,ok_bind]
          cases decoded : LogRecord.decode ((bytes.drop offset).take record_len) with
          | error error => rfl
          | ok record =>
            obtain ⟨-,spelled⟩ := decode_canonical decoded
            have size : record.frame.length = record_len := by
              rw [← spelled,List.length_take]
              omega
            simp only [Except.mapError,ok_bind,size]
  · have empty : bytes.drop offset = [] := List.drop_eq_nil_iff.mpr (by omega)
    rw [dif_neg inside,empty]
    simp [recordHead,HEADER_LEN]

/-- The loop scans the records that remain. -/
theorem recover_loop_eq (bytes : Bytes) (offset : Nat) (acc : Progress) (inside : offset ≤ bytes.length) :
    recover_loop bytes offset acc =
      (logFraming.scan recover_record acc (bytes.drop offset)).map (fun r => (r.1,bytes.length - r.2.length)) := by
  induction left : bytes.length - offset using Nat.strong_induction_on generalizing offset acc with
  | _ left ih =>
    subst left
    rw [recover_loop_step,Framing.scan_eq]
    cases front : recordHead (bytes.drop offset) with
    | torn =>
      have torn : logFraming.head (bytes.drop offset) = .torn := front
      rw [Framing.values_torn _ torn,Framing.rest_torn _ torn,torn]
      simp only [List.foldlM_nil,pure_is_ok,ok_bind,Except.map,List.length_drop]
      congr 2
      omega
    | bad error =>
      have bad : logFraming.head (bytes.drop offset) = .bad error := front
      have other : ∀ a, logFraming.head (bytes.drop offset) ≠ .frame a := by simp [bad]
      rw [Framing.values_other _ other,Framing.rest_other _ other,bad]
      rfl
    | frame record =>
      obtain ⟨fits,follows,split⟩ := of_recordHead front
      have later : bytes.drop (offset + record.frame.length) = follows := by
        rw [← List.drop_drop,← split,List.drop_left]
      have size := congrArg List.length split
      simp only [List.length_append,List.length_drop,frame_length] at size
      have values : logFraming.values (bytes.drop offset) = record :: logFraming.values follows := by
        rw [← split]
        exact Framing.values_frame logFraming fits follows
      have rest : logFraming.rest (bytes.drop offset) = logFraming.rest follows := by
        rw [← split]
        exact Framing.rest_frame logFraming fits follows
      rw [values,rest,List.foldlM_cons]
      dsimp only
      cases stepped : recover_record acc record with
      | error error => rfl
      | ok next =>
        rw [ok_bind,ok_bind,ih _ (by rw [frame_length]; omega) _ _ (by rw [frame_length]; omega) rfl,later,
          Framing.scan_eq]

/-- What recovery reports about a scan that stopped at `valid_end`. -/
def Progress.report (acc : Progress) (valid_end : Nat) : Recovery where
  state := acc.state
  max_tx_id := acc.max_tx_id
  max_sequence := acc.max_sequence
  valid_end := valid_end
  records := acc.records
  committed_transactions := acc.committed.size
  pending_transactions := acc.pending.size

end

/-- The loop body, folded over the records of a log. -/
def replay (rs : List LogRecord) : Except EngineError Progress := rs.foldlM recover_record .start

theorem replay_snoc (rs : List LogRecord) (record : LogRecord) :
    replay (rs ++ [record]) = replay rs >>= fun acc => recover_record acc record := by
  simp only [replay,List.foldlM_append,List.foldlM_cons,List.foldlM_nil,bind_pure]

section
variable [Hashes]

/-- A file is its header, its complete records and the fragment after them. -/
theorem frames_fragment (file : Bytes) : frames (records file) ++ fragment file = file.drop STORE_HEADER_LEN :=
  logFraming.encodeAll_values_rest _

theorem records_fit (file : Bytes) : ∀ r ∈ records file, r.Fits := logFraming.values_valid _

/-- Recovery replays the complete records, and accepts what follows them if it is torn. -/
theorem recover_ok_iff {file : Bytes} {recovery : Recovery} :
    recover file = .ok recovery ↔ ∃ acc, replay (records file) = .ok acc ∧
      recordHead (fragment file) = .torn ∧
      recovery = acc.report (STORE_HEADER_LEN + (frames (records file)).length) := by
  have size := congrArg List.length (frames_fragment file)
  rw [List.length_append] at size
  have offset : (file.drop STORE_HEADER_LEN).length - (fragment file).length = (frames (records file)).length := by
    omega
  rw [recover]
  dsimp only
  rw [recover_loop_eq _ 0 _ (by omega),List.drop_zero]
  constructor
  · intro recovered
    obtain ⟨⟨acc,stop⟩,scanned,reported⟩ := bind_ok_iff.mp recovered
    cases reported
    cases scan : logFraming.scan recover_record .start (file.drop STORE_HEADER_LEN) with
    | error error => rw [scan] at scanned; cases scanned
    | ok reached =>
      obtain ⟨last,left⟩ := reached
      rw [scan] at scanned
      cases scanned
      obtain ⟨folded,rfl,torn⟩ := (logFraming.scan_ok_iff _ _ _ _ _).mp scan
      refine ⟨last,folded,torn,?_⟩
      rw [← offset]
      rfl
  · rintro ⟨acc,folded,torn,rfl⟩
    have scan := (logFraming.scan_ok_iff recover_record .start acc _ _).mpr ⟨folded,rfl,torn⟩
    rw [scan,← offset]
    rfl

/-- A file that holds the given records in front of a torn fragment. -/
theorem recover_written {header fragment : Bytes} {rs : List LogRecord} {acc : Progress}
    (size : header.length = STORE_HEADER_LEN) (fits : ∀ r ∈ rs, r.Fits) (torn : recordHead fragment = .torn)
    (replayed : replay rs = .ok acc) :
    recover (header ++ (frames rs ++ fragment)) = .ok (acc.report (STORE_HEADER_LEN + (frames rs).length)) := by
  have body := drop_header size (frames rs ++ fragment)
  have holds : records (header ++ (frames rs ++ fragment)) = rs := by
    rw [records,body]
    exact logFraming.values_written fits torn
  have leaves : VoodooStore.fragment (header ++ (frames rs ++ fragment)) = fragment := by
    rw [VoodooStore.fragment,body]
    exact logFraming.rest_written fits torn
  rw [recover_ok_iff,holds,leaves]
  exact ⟨acc,replayed,torn,rfl⟩

end

/-! ## What a replayed log means -/

/-- The operation that a record stages, if it stages one. -/
def LogRecord.operation (r : LogRecord) : Option Operation :=
  match r.kind with
  | .Put => (decode_put r.payload).toOption
  | .Delete => (decode_delete r.payload).toOption
  | .Commit => none

/-- The operations that a log stages for a transaction, in log order. -/
def stagedBy (tx_id : UInt64) (rs : List LogRecord) : List Operation :=
  rs.filterMap (fun r => if r.tx_id = tx_id then r.operation else none)

/-- The transactions that a log commits, in log order. -/
def commits (rs : List LogRecord) : List UInt64 :=
  rs.filterMap (fun r => if r.kind = .Commit then some r.tx_id else none)

/-- The map that a log leaves: every committed transaction applied as a whole,
    in the order of the commit records. -/
def committedState (rs : List LogRecord) : State :=
  (commits rs).foldl (fun state tx_id => apply_operations state (stagedBy tx_id rs)) ∅

/-- The sequence number after which a log goes on; zero stands for no record. -/
def lastSequence (rs : List LogRecord) : UInt64 := ((rs.getLast?).map LogRecord.sequence).getD 0

/-- What one turn of the loop does when it succeeds. -/
theorem recover_record_ok {acc next : Progress} {r : LogRecord} (stepped : recover_record acc r = .ok next) :
    (acc.max_sequence = 0 ∨ acc.max_sequence < r.sequence) ∧ r.tx_id ∉ acc.committed ∧
    next.max_sequence = r.sequence ∧ next.max_tx_id = max acc.max_tx_id r.tx_id ∧
    next.records.toNat = acc.records.toNat + 1 ∧
    ((∃ operation, r.kind ≠ .Commit ∧ r.operation = some operation ∧ next.state = acc.state ∧
        next.pending = acc.pending.insert r.tx_id (acc.pending.getD r.tx_id [] ++ [operation]) ∧
        next.committed = acc.committed) ∨
      (r.kind = .Commit ∧ next.state = apply_operations acc.state (acc.pending.getD r.tx_id []) ∧
        next.pending = acc.pending.erase r.tx_id ∧ next.committed = acc.committed.insert r.tx_id)) := by
  unfold recover_record at stepped
  obtain ⟨monotone,stepped⟩ := refuse_ok_iff.mp stepped
  obtain ⟨fresh,stepped⟩ := refuse_ok_iff.mp stepped
  have order : acc.max_sequence = 0 ∨ acc.max_sequence < r.sequence := by
    by_cases zero : acc.max_sequence = 0
    · exact .inl zero
    · exact .inr (UInt64.not_le.mp (fun le => monotone ⟨le,zero⟩))
  cases counted : acc.records.checked_add 1 with
  | none => rw [counted] at stepped; cases stepped
  | some count =>
    have counts : count.toNat = acc.records.toNat + 1 := u64_checked_add_some counted
    rw [counted] at stepped
    dsimp only at stepped
    cases kind : r.kind with
    | Put =>
      rw [kind] at stepped
      obtain ⟨operation,decoded,pushed⟩ := bind_ok_iff.mp stepped
      cases pushed
      refine ⟨order,fresh,rfl,rfl,counts,.inl ⟨operation,by simp,?_,rfl,rfl,rfl⟩⟩
      simp [LogRecord.operation,kind,decoded,Except.toOption]
    | Delete =>
      rw [kind] at stepped
      obtain ⟨operation,decoded,pushed⟩ := bind_ok_iff.mp stepped
      cases pushed
      refine ⟨order,fresh,rfl,rfl,counts,.inl ⟨operation,by simp,?_,rfl,rfl,rfl⟩⟩
      simp [LogRecord.operation,kind,decoded,Except.toOption]
    | Commit =>
      rw [kind] at stepped
      cases stepped
      refine ⟨order,fresh,rfl,rfl,counts,.inr ⟨rfl,?_,rfl,rfl⟩⟩
      dsimp only
      rw [Std.ExtTreeMap.getD_eq_getD_getElem?]
      cases acc.pending[r.tx_id]? <;> rfl

/-- Earlier records come before later ones; zero, the mark of an empty log, before anything. -/
def SequenceBefore (a b : LogRecord) : Prop := a.sequence = 0 ∨ a.sequence < b.sequence

/-- The sequence numbers of a log rise strictly. -/
def Increasing (rs : List LogRecord) : Prop := rs.Pairwise (fun a b => a.sequence < b.sequence)

instance (rs : List LogRecord) : Decidable (Increasing rs) := inferInstanceAs (Decidable (List.Pairwise _ _))

/-- A record after a commit belongs to another transaction. -/
def NotReopened (a b : LogRecord) : Prop := a.kind = .Commit → b.tx_id ≠ a.tx_id

/-- What a replay of a log knows about it. -/
structure Replayed (rs : List LogRecord) (acc : Progress) : Prop where
  sequence : acc.max_sequence = lastSequence rs
  txId : acc.max_tx_id = (rs.map LogRecord.tx_id).foldl max 0
  count : acc.records.toNat = rs.length
  committed : ∀ t, t ∈ acc.committed ↔ t ∈ commits rs
  pending : ∀ t, t ∉ commits rs → acc.pending.getD t [] = stagedBy t rs
  state : acc.state = committedState rs
  ordered : rs.Pairwise SequenceBefore
  closed : rs.Pairwise NotReopened

@[simp] theorem lastSequence_snoc (rs : List LogRecord) (r : LogRecord) : lastSequence (rs ++ [r]) = r.sequence := by
  simp [lastSequence]

theorem commits_snoc (rs : List LogRecord) (r : LogRecord) :
    commits (rs ++ [r]) = commits rs ++ if r.kind = .Commit then [r.tx_id] else [] := by
  rw [commits,List.filterMap_append]
  by_cases commit : r.kind = .Commit <;> simp [commits,commit]

theorem stagedBy_snoc (t : UInt64) (rs : List LogRecord) (r : LogRecord) :
    stagedBy t (rs ++ [r]) = stagedBy t rs ++ if r.tx_id = t then r.operation.toList else [] := by
  rw [stagedBy,List.filterMap_append]
  by_cases mine : r.tx_id = t
  · cases operation : r.operation <;> simp [stagedBy,mine,operation]
  · simp [stagedBy,mine]

theorem commit_stages_nothing {r : LogRecord} (commit : r.kind = .Commit) : r.operation = none := by
  simp [LogRecord.operation,commit]

theorem mem_commits {rs : List LogRecord} {t : UInt64} : t ∈ commits rs ↔ ∃ r ∈ rs, r.kind = .Commit ∧ r.tx_id = t := by
  simp [commits]

/-- A record of an open transaction leaves the committed map as it was. -/
theorem committedState_snoc_other {rs : List LogRecord} {r : LogRecord} (other : r.kind ≠ .Commit)
    (fresh : r.tx_id ∉ commits rs) : committedState (rs ++ [r]) = committedState rs := by
  have same : commits (rs ++ [r]) = commits rs := by simp [commits_snoc,other]
  rw [committedState,committedState,same]
  apply List.foldl_ext
  intro state t member
  have distinct : r.tx_id ≠ t := fun equal => fresh (equal ▸ member)
  rw [stagedBy_snoc,if_neg distinct,List.append_nil]

/-- A commit record applies what its transaction staged. -/
theorem committedState_snoc_commit {rs : List LogRecord} {r : LogRecord} (commit : r.kind = .Commit) :
    committedState (rs ++ [r]) = apply_operations (committedState rs) (stagedBy r.tx_id rs) := by
  have stages (t : UInt64) : stagedBy t (rs ++ [r]) = stagedBy t rs := by
    simp [stagedBy_snoc,commit_stages_nothing commit]
  simp only [committedState,commits_snoc,commit,if_true,List.foldl_append,List.foldl_cons,List.foldl_nil,stages]

/-- In an ordered log no sequence number exceeds the last one. -/
theorem ordered_le_last {rs : List LogRecord} (ordered : rs.Pairwise SequenceBefore) {a : LogRecord} (member : a ∈ rs) :
    a.sequence ≤ lastSequence rs := by
  rcases List.eq_nil_or_concat rs with rfl | ⟨front,last,rfl⟩
  · simp at member
  · rw [List.concat_eq_append] at *
    rw [lastSequence_snoc]
    rcases List.mem_append.mp member with earlier | same
    · rcases (List.pairwise_append.mp ordered).2.2 a earlier last (by simp) with zero | less
      · rw [zero]; exact UInt64.zero_le
      · exact UInt64.le_of_lt less
    · rw [List.mem_singleton.mp same]; exact UInt64.le_refl _

theorem replayed_start : Replayed [] .start := by
  refine ⟨rfl,rfl,rfl,?_,?_,rfl,.nil,.nil⟩
  · intro t; simp [Progress.start,commits]
  · intro t _; simp [Progress.start,stagedBy]

/-- One more record that the loop accepts. -/
theorem replayed_snoc {rs : List LogRecord} {acc next : Progress} {r : LogRecord} (before : Replayed rs acc)
    (stepped : recover_record acc r = .ok next) : Replayed (rs ++ [r]) next := by
  obtain ⟨order,notCommitted,sequence,txId,count,effect⟩ := recover_record_ok stepped
  have fresh : r.tx_id ∉ commits rs := fun member => notCommitted ((before.committed _).mpr member)
  have ordered : (rs ++ [r]).Pairwise SequenceBefore := by
    refine List.pairwise_append.mpr ⟨before.ordered,List.pairwise_singleton _ _,?_⟩
    intro a member b same
    rw [List.mem_singleton.mp same]
    have bound := ordered_le_last before.ordered member
    rw [← before.sequence] at bound
    rcases order with zero | less
    · left
      rw [zero] at bound
      exact UInt64.le_antisymm bound UInt64.zero_le
    · exact .inr (UInt64.lt_of_le_of_lt bound less)
  have closed : (rs ++ [r]).Pairwise NotReopened := by
    refine List.pairwise_append.mpr ⟨before.closed,List.pairwise_singleton _ _,?_⟩
    intro a member b same commit
    rw [List.mem_singleton.mp same]
    intro equal
    exact fresh (mem_commits.mpr ⟨a,member,commit,equal.symm⟩)
  refine ⟨by rw [sequence,lastSequence_snoc],?_,by simp [count,before.count],?_,?_,?_,ordered,closed⟩
  · simp [txId,before.txId]
  · intro t
    rw [commits_snoc]
    rcases effect with ⟨operation,other,-,-,-,committed⟩ | ⟨commit,-,-,committed⟩
    · simp [committed,before.committed,other]
    · simp only [committed,Std.ExtTreeSet.mem_insert,Std.LawfulEqOrd.compare_eq_iff_eq,before.committed,commit,
        if_true,List.mem_append,List.mem_singleton]
      exact ⟨fun h => h.symm.imp_right Eq.symm,fun h => h.symm.imp_left Eq.symm⟩
  · intro t open_t
    rw [commits_snoc] at open_t
    rw [stagedBy_snoc]
    rcases effect with ⟨operation,other,stages,-,pending,-⟩ | ⟨commit,-,pending,-⟩
    · have notIn : t ∉ commits rs := by simpa [other] using open_t
      rw [pending,Std.ExtTreeMap.getD_insert]
      by_cases mine : r.tx_id = t
      · subst mine
        simp [stages,before.pending _ fresh]
      · simp [mine,before.pending t notIn]
    · rw [if_pos commit] at open_t
      have notIn : t ∉ commits rs := fun member => open_t (List.mem_append_left _ member)
      have otherTx : r.tx_id ≠ t := fun equal => open_t (by simp [equal])
      rw [pending,Std.ExtTreeMap.getD_erase]
      simp [otherTx,before.pending t notIn]
  · rcases effect with ⟨operation,other,-,state,-,-⟩ | ⟨commit,state,-,-⟩
    · rw [state,committedState_snoc_other other fresh,before.state]
    · rw [state,committedState_snoc_commit commit,before.state,before.pending _ fresh]

/-- A replay that succeeds knows the log. -/
theorem replay_ok {rs : List LogRecord} {acc : Progress} (replayed : replay rs = .ok acc) : Replayed rs acc := by
  induction rs using List.reverseRecOn generalizing acc with
  | nil => cases replayed; exact replayed_start
  | append_singleton rs r ih =>
    rw [replay_snoc] at replayed
    obtain ⟨before,first,stepped⟩ := bind_ok_iff.mp replayed
    exact replayed_snoc (ih first) stepped

end VoodooStore
