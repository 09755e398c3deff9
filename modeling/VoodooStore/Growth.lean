import VoodooStore.Acceptance
import VoodooStore.Commit

/-!
# How a log grows

What a store writes continues an accepted log with records that recovery
accepts as well: `replay_next` for one record, `LogSound.stages` and
`LogSound.commits` for what a transaction writes. `commitments` lists the
transactions that a log commits with what each of them applies and where it
ends; the map that a log leaves is their fold (`committedState_commitments`).
-/
namespace VoodooStore
open Frames
set_option linter.unusedSimpArgs false

/-! ## Records that recovery accepts -/

/-- A record that is due, of an open transaction, that decodes. -/
theorem recover_record_accepts {acc : Progress} {r : LogRecord} (later : acc.max_sequence < r.sequence)
    (fresh : r.tx_id ∉ acc.committed) (room : acc.records.toNat + 1 < 2 ^ 64)
    (decodes : r.kind = .Commit ∨ r.operation ≠ none) : ∃ next, recover_record acc r = .ok next := by
  have due : ¬ (r.sequence ≤ acc.max_sequence ∧ acc.max_sequence ≠ 0) := by
    rintro ⟨early,-⟩
    exact UInt64.not_lt.mpr early later
  have counted : acc.records.checked_add 1 = some (acc.records + 1) := if_pos room
  unfold recover_record
  rw [if_neg due,if_neg fresh,counted]
  dsimp only
  cases kind : r.kind with
  | Put =>
    have some_operation : r.operation ≠ none := decodes.resolve_left (by simp [kind])
    cases decoded : decode_put r.payload with
    | ok operation => exact ⟨_,rfl⟩
    | error error => simp [LogRecord.operation,kind,decoded,Except.toOption] at some_operation
  | Delete =>
    have some_operation : r.operation ≠ none := decodes.resolve_left (by simp [kind])
    cases decoded : decode_delete r.payload with
    | ok operation => exact ⟨_,rfl⟩
    | error error => simp [LogRecord.operation,kind,decoded,Except.toOption] at some_operation
  | Commit => exact ⟨_,rfl⟩

theorem replay_next {rs : List LogRecord} {r : LogRecord} (replays : ∃ acc, replay rs = .ok acc)
    (later : lastSequence rs < r.sequence) (fresh : r.tx_id ∉ commits rs) (room : rs.length + 1 < 2 ^ 64)
    (decodes : r.kind = .Commit ∨ r.operation ≠ none) : ∃ acc, replay (rs ++ [r]) = .ok acc := by
  obtain ⟨acc,replayed⟩ := replays
  have known := replay_ok replayed
  have next : ∃ reached, recover_record acc r = .ok reached := recover_record_accepts (by rw [known.sequence]; exact later)
    (fun member => fresh ((known.committed _).mp member)) (by rw [known.count]; exact room) decodes
  obtain ⟨reached,stepped⟩ := next
  refine ⟨reached,?_⟩
  rw [replay_snoc,replayed]
  exact stepped

/-- Records that only stage commit nothing. -/
theorem commits_staging {rs new : List LogRecord} (stages : ∀ r ∈ new, r.operation ≠ none) :
    commits (rs ++ new) = commits rs := by
  have nothing : commits new = [] := by
    refine List.filterMap_eq_nil_iff.mpr ?_
    intro r member
    rw [if_neg]
    intro commit
    exact stages r member (commit_stages_nothing commit)
  rw [commits,List.filterMap_append]
  exact (congrArg (commits rs ++ ·) nothing).trans (List.append_nil _)

theorem replay_staging {rs new : List LogRecord} (replays : ∃ acc, replay rs = .ok acc)
    (later : ∀ r ∈ new, lastSequence rs < r.sequence) (increasing : Increasing new)
    (fresh : ∀ r ∈ new, r.tx_id ∉ commits rs) (stages : ∀ r ∈ new, r.operation ≠ none)
    (room : rs.length + new.length < 2 ^ 64) : ∃ acc, replay (rs ++ new) = .ok acc := by
  induction new generalizing rs with
  | nil => rw [List.append_nil]; exact replays
  | cons r new ih =>
    obtain ⟨first,increasing⟩ := List.pairwise_cons.mp increasing
    rw [List.length_cons] at room
    have one := replay_next replays (later r (by simp)) (fresh r (by simp)) (by omega) (.inr (stages r (by simp)))
    have same : commits (rs ++ [r]) = commits rs := commits_staging (by simp [stages r (by simp)])
    rw [List.append_cons]
    refine ih one ?_ increasing ?_ ?_ ?_
    · intro t member
      rw [lastSequence_snoc]
      exact first t member
    · intro t member
      rw [same]
      exact fresh t (by simp [member])
    · intro t member
      exact stages t (by simp [member])
    · rw [List.length_append,List.length_singleton]
      omega

/-! ## Logs that a store can go on with -/

/-- A log that recovery accepts, numbered from one, with counters that are ahead of it. -/
structure LogSound (rs : List LogRecord) (next_tx_id next_sequence : UInt64) : Prop where
  replays : ∃ acc, replay rs = .ok acc
  increasing : Increasing rs
  positive : ∀ r ∈ rs, 0 < r.sequence
  last : lastSequence rs < next_sequence
  identified : ∀ r ∈ rs, r.tx_id < next_tx_id

/-- A log numbered from one has no more records than numbers. -/
theorem increasing_count {rs : List LogRecord} (increasing : Increasing rs) (positive : ∀ r ∈ rs, 0 < r.sequence) :
    rs.length ≤ (lastSequence rs).toNat := by
  induction rs using List.reverseRecOn with
  | nil => exact Nat.zero_le _
  | append_singleton rs r ih =>
    obtain ⟨front,-,last⟩ := List.pairwise_append.mp increasing
    have bound := ih front (fun t member => positive t (by simp [member]))
    have next : (lastSequence rs).toNat < r.sequence.toNat := by
      rcases List.eq_nil_or_concat rs with rfl | ⟨first,t,rfl⟩
      · exact UInt64.lt_iff_toNat_lt.mp (positive r (by simp))
      · rw [List.concat_eq_append] at last ⊢
        rw [lastSequence_snoc]
        exact UInt64.lt_iff_toNat_lt.mp (last t (by simp) r (by simp))
    rw [lastSequence_snoc,List.length_append,List.length_singleton]
    omega

theorem increasing_le_last {rs : List LogRecord} (increasing : Increasing rs) {r : LogRecord} (member : r ∈ rs) :
    r.sequence ≤ lastSequence rs :=
  ordered_le_last (increasing.imp (fun less => .inr less)) member

theorem LogSound.numbered {rs : List LogRecord} {next_tx_id next_sequence : UInt64}
    (sound : LogSound rs next_tx_id next_sequence) {r : LogRecord} (member : r ∈ rs) : r.sequence < next_sequence :=
  UInt64.lt_of_le_of_lt (increasing_le_last sound.increasing member) sound.last

theorem LogSound.count {rs : List LogRecord} {next_tx_id next_sequence : UInt64}
    (sound : LogSound rs next_tx_id next_sequence) : rs.length < next_sequence.toNat :=
  Nat.lt_of_le_of_lt (increasing_count sound.increasing sound.positive) (UInt64.lt_iff_toNat_lt.mp sound.last)

theorem LogSound.begin {rs : List LogRecord} {next_tx_id next_sequence later : UInt64}
    (sound : LogSound rs next_tx_id next_sequence) (order : next_tx_id ≤ later) : LogSound rs later next_sequence := by
  refine ⟨sound.replays,sound.increasing,sound.positive,sound.last,?_⟩
  intro r member
  exact UInt64.lt_of_lt_of_le (sound.identified r member) order

theorem LogSound.skip {rs : List LogRecord} {next_tx_id next_sequence later : UInt64}
    (sound : LogSound rs next_tx_id next_sequence) (order : next_sequence ≤ later) : LogSound rs next_tx_id later :=
  ⟨sound.replays,sound.increasing,sound.positive,UInt64.lt_of_lt_of_le sound.last order,sound.identified⟩

/-- The first records of a sound log are one. -/
theorem LogSound.cut {rs front : List LogRecord} {next_tx_id next_sequence : UInt64}
    (sound : LogSound rs next_tx_id next_sequence) (first : front <+: rs) : LogSound front next_tx_id next_sequence := by
  obtain ⟨acc,replayed⟩ := sound.replays
  refine ⟨foldlM_front replayed first,sound.increasing.sublist first.sublist,?_,?_,?_⟩
  · intro r member
    exact sound.positive r (first.subset member)
  · rcases List.eq_nil_or_concat front with rfl | ⟨early,r,rfl⟩
    · exact UInt64.lt_of_le_of_lt UInt64.zero_le sound.last
    · rw [List.concat_eq_append] at first ⊢
      rw [lastSequence_snoc]
      exact sound.numbered (first.subset (by simp))
  · intro r member
    exact sound.identified r (first.subset member)

/-- The parts of a grown log that do not depend on what the new records say. -/
theorem LogSound.grow {rs new : List LogRecord} {next_tx_id next_sequence later tx_id : UInt64}
    (sound : LogSound rs next_tx_id next_sequence) (numbered : Numbered next_sequence later new)
    (mine : ∀ r ∈ new, r.tx_id = tx_id) (begun : tx_id < next_tx_id)
    (replays : ∃ acc, replay (rs ++ new) = .ok acc) : LogSound (rs ++ new) next_tx_id later := by
  have above : ∀ r ∈ new, lastSequence rs < r.sequence := by
    intro r member
    exact UInt64.lt_of_lt_of_le sound.last (numbered.range r member).1
  refine ⟨replays,?_,?_,?_,?_⟩
  · refine List.pairwise_append.mpr ⟨sound.increasing,numbered.increasing,?_⟩
    intro r old t young
    exact UInt64.lt_of_le_of_lt (increasing_le_last sound.increasing old) (above t young)
  · intro r member
    rcases List.mem_append.mp member with old | young
    · exact sound.positive r old
    · exact UInt64.lt_of_le_of_lt UInt64.zero_le (above r young)
  · rcases List.eq_nil_or_concat new with rfl | ⟨front,r,rfl⟩
    · rw [List.append_nil]
      exact UInt64.lt_of_lt_of_le sound.last numbered.le
    · rw [List.concat_eq_append] at numbered ⊢
      rw [← List.append_assoc,lastSequence_snoc]
      exact (numbered.range r (by simp)).2
  · intro r member
    rcases List.mem_append.mp member with old | young
    · exact sound.identified r old
    · rw [mine r young]
      exact begun

/-- The staged records of an open transaction. -/
theorem LogSound.stages {rs new : List LogRecord} {next_tx_id next_sequence later tx_id : UInt64}
    (sound : LogSound rs next_tx_id next_sequence) (numbered : Numbered next_sequence later new)
    (mine : ∀ r ∈ new, r.tx_id = tx_id) (begun : tx_id < next_tx_id) (uncommitted : tx_id ∉ commits rs)
    (stages : ∀ r ∈ new, r.operation ≠ none) : LogSound (rs ++ new) next_tx_id later := by
  have count := sound.count
  have counted := numbered.count
  have bound := later.toNat_lt
  refine sound.grow numbered mine begun (replay_staging sound.replays ?_ numbered.increasing ?_ stages (by omega))
  · intro r member
    exact UInt64.lt_of_lt_of_le sound.last (numbered.range r member).1
  · intro r member
    rw [mine r member]
    exact uncommitted

/-- The staged records of an open transaction and then its commit record. -/
theorem LogSound.commits {rs new : List LogRecord} {r : LogRecord} {next_tx_id next_sequence later tx_id : UInt64}
    (sound : LogSound rs next_tx_id next_sequence) (numbered : Numbered next_sequence later (new ++ [r]))
    (mine : ∀ t ∈ new ++ [r], t.tx_id = tx_id) (begun : tx_id < next_tx_id) (uncommitted : tx_id ∉ commits rs)
    (stages : ∀ t ∈ new, t.operation ≠ none) (commit : r.kind = .Commit) :
    LogSound (rs ++ (new ++ [r])) next_tx_id later := by
  have count := sound.count
  have counted := numbered.count
  have bound := later.toNat_lt
  rw [List.length_append,List.length_singleton] at counted
  obtain ⟨increasing,-,last⟩ := List.pairwise_append.mp numbered.increasing
  refine sound.grow numbered mine begun ?_
  rw [← List.append_assoc]
  have staged : ∃ acc, replay (rs ++ new) = .ok acc := by
    refine replay_staging sound.replays ?_ increasing ?_ stages (by omega)
    · intro t member
      exact UInt64.lt_of_lt_of_le sound.last (numbered.range t (by simp [member])).1
    · intro t member
      rw [mine t (by simp [member])]
      exact uncommitted
  refine replay_next staged ?_ ?_ (by rw [List.length_append]; omega) (.inl commit)
  · rcases List.eq_nil_or_concat new with rfl | ⟨front,t,rfl⟩
    · rw [List.append_nil]
      exact UInt64.lt_of_lt_of_le sound.last (numbered.range r (by simp)).1
    · rw [List.concat_eq_append] at last ⊢
      rw [← List.append_assoc,lastSequence_snoc]
      exact last t (by simp) r (by simp)
  · rw [commits_staging stages,mine r (by simp)]
    exact uncommitted

theorem stagedBy_append (t : UInt64) (rs new : List LogRecord) :
    stagedBy t (rs ++ new) = stagedBy t rs ++ stagedBy t new := by
  rw [stagedBy,List.filterMap_append]
  rfl

/-- A transaction's own records stage what they say. -/
theorem stagedBy_mine {t : UInt64} {rs : List LogRecord} (mine : ∀ r ∈ rs, r.tx_id = t) :
    stagedBy t rs = rs.filterMap LogRecord.operation := by
  refine List.filterMap_congr ?_
  intro r member
  rw [if_pos (mine r member)]

/-- A transaction without records has staged nothing. -/
theorem stagedBy_other {t : UInt64} {rs : List LogRecord} (others : ∀ r ∈ rs, r.tx_id ≠ t) : stagedBy t rs = [] := by
  refine List.filterMap_eq_nil_iff.mpr ?_
  intro r member
  rw [if_neg (others r member)]

/-! ## The transactions that a log commits -/

/-- A committed transaction: what it applies, and where its commit record ends in the file. -/
structure Commitment where
  tx_id : UInt64
  operations : List Operation
  commit_end : Nat

/-- Every commitment applied as a whole, one after another. -/
def applyCommitments (state : State) (cs : List Commitment) : State :=
  cs.foldl (fun state c => apply_operations state c.operations) state

theorem applyCommitments_append (state : State) (early late : List Commitment) :
    applyCommitments state (early ++ late) = applyCommitments (applyCommitments state early) late :=
  List.foldl_append

section
variable [Hashes]

/-- The end of a list of records in a file. -/
def endOf (rs : List LogRecord) : Nat := STORE_HEADER_LEN + (frames rs).length

/-- The commitments of the records that follow `before`. -/
def commitmentsAfter (before : List LogRecord) : List LogRecord → List Commitment
  | [] => []
  | r :: rs =>
    if r.kind = .Commit then
      ⟨r.tx_id,stagedBy r.tx_id before,endOf (before ++ [r])⟩ :: commitmentsAfter (before ++ [r]) rs
    else commitmentsAfter (before ++ [r]) rs

def commitments (rs : List LogRecord) : List Commitment := commitmentsAfter [] rs

theorem commitmentsAfter_append (before rs new : List LogRecord) :
    commitmentsAfter before (rs ++ new) = commitmentsAfter before rs ++ commitmentsAfter (before ++ rs) new := by
  induction rs generalizing before with
  | nil => simp [commitmentsAfter]
  | cons r rs ih =>
    rw [List.cons_append,commitmentsAfter,commitmentsAfter,ih,List.append_cons before r rs]
    by_cases commit : r.kind = .Commit
    · rw [if_pos commit,if_pos commit,List.cons_append]
    · rw [if_neg commit,if_neg commit]

theorem commitments_append (rs new : List LogRecord) :
    commitments (rs ++ new) = commitments rs ++ commitmentsAfter rs new :=
  commitmentsAfter_append [] rs new

theorem commitmentsAfter_staging {before new : List LogRecord} (stages : ∀ r ∈ new, r.operation ≠ none) :
    commitmentsAfter before new = [] := by
  induction new generalizing before with
  | nil => rfl
  | cons r new ih =>
    rw [commitmentsAfter,if_neg]
    · exact ih (fun t member => stages t (by simp [member]))
    · intro commit
      exact stages r (by simp) (commit_stages_nothing commit)

/-- A commit record adds one commitment: all that its transaction has staged. -/
theorem commitments_commit {rs new : List LogRecord} {r : LogRecord} (stages : ∀ t ∈ new, t.operation ≠ none)
    (commit : r.kind = .Commit) : commitments (rs ++ (new ++ [r])) =
      commitments rs ++ [⟨r.tx_id,stagedBy r.tx_id (rs ++ new),endOf (rs ++ (new ++ [r]))⟩] := by
  rw [commitments_append,commitmentsAfter_append,commitmentsAfter_staging stages,List.nil_append,commitmentsAfter,
    if_pos commit,commitmentsAfter,List.append_assoc]

theorem committedState_commitments {rs : List LogRecord} {acc : Progress} (replayed : replay rs = .ok acc) :
    committedState rs = applyCommitments ∅ (commitments rs) := by
  induction rs using List.reverseRecOn generalizing acc with
  | nil => rfl
  | append_singleton rs r ih =>
    rw [replay_snoc] at replayed
    obtain ⟨before,first,stepped⟩ := bind_ok_iff.mp replayed
    have known := replay_ok first
    have fresh : r.tx_id ∉ commits rs := by
      intro member
      exact (recover_record_ok stepped).2.1 ((known.committed _).mpr member)
    rw [commitments_append,applyCommitments_append,← ih first,commitmentsAfter]
    by_cases commit : r.kind = .Commit
    · rw [if_pos commit,committedState_snoc_commit commit]
      rfl
    · rw [if_neg commit,committedState_snoc_other commit fresh]
      rfl

theorem endOf_append (rs new : List LogRecord) : endOf (rs ++ new) = endOf rs + (frames new).length := by
  rw [endOf,endOf,frames,frames,frames,Framing.encodeAll_append,List.length_append]
  omega

/-- A commitment ends where one of the records ends. -/
theorem commitment_end {before rs : List LogRecord} {c : Commitment} (member : c ∈ commitmentsAfter before rs) :
    ∃ front r, front ++ [r] <+: rs ∧ c.commit_end = endOf (before ++ (front ++ [r])) := by
  induction rs generalizing before with
  | nil => cases member
  | cons r rs ih =>
    rw [commitmentsAfter] at member
    have later : c ∈ commitmentsAfter (before ++ [r]) rs → ∃ front t, front ++ [t] <+: r :: rs ∧
        c.commit_end = endOf (before ++ (front ++ [t])) := by
      intro inRest
      obtain ⟨front,t,first,ends⟩ := ih inRest
      refine ⟨r :: front,t,?_,?_⟩
      · exact List.cons_prefix_cons.mpr ⟨rfl,first⟩
      · rw [ends,List.append_assoc]
        rfl
    split at member
    · rcases List.mem_cons.mp member with rfl | inRest
      · exact ⟨[],r,by simp,rfl⟩
      · exact later inRest
    · exact later member

/-- Cutting a file leaves the commitments that end inside it. -/
theorem commitments_cut {rs all : List LogRecord} {cut : Nat} (first : rs <+: all) (inside : endOf rs ≤ cut)
    (most : ∀ more, more <+: all → endOf more ≤ cut → more <+: rs) :
    commitments rs = (commitments all).filter (fun c => c.commit_end ≤ cut) := by
  obtain ⟨later,rfl⟩ := first
  have kept : (commitments rs).filter (fun c => c.commit_end ≤ cut) = commitments rs := by
    refine List.filter_eq_self.mpr ?_
    intro c member
    obtain ⟨front,r,⟨rest,split⟩,ends⟩ := commitment_end member
    rw [List.nil_append] at ends
    have bound := endOf_append (front ++ [r]) rest
    rw [split] at bound
    rw [decide_eq_true_eq]
    omega
  have lost : (commitmentsAfter rs later).filter (fun c => c.commit_end ≤ cut) = [] := by
    refine List.filter_eq_nil_iff.mpr ?_
    intro c member
    obtain ⟨front,r,start,ends⟩ := commitment_end member
    rw [decide_eq_true_eq]
    intro survives
    have back := most (rs ++ (front ++ [r])) ((List.prefix_append_right_inj rs).mpr start) (by omega)
    have shorter := back.length_le
    simp at shorter
  rw [commitments_append,List.filter_append,kept,lost,List.append_nil]

end

end VoodooStore
