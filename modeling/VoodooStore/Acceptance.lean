import VoodooStore.Recover

/-!
# What recovery accepts

Two questions about a file that recovery accepts, whoever wrote it. Which rules
does its log keep? The loop takes zero for an empty log, so a log may say zero
more than once, and only then is it not strictly increasing (`accepted_log_iff`).
And what may be cut off? Every shorter file is accepted as well and ends at the
last record boundary inside it (`cut_sound`).
-/
namespace VoodooStore
open Frames
set_option linter.unusedSimpArgs false

/-- No record follows the commit of its transaction. -/
def Closed (rs : List LogRecord) : Prop := rs.Pairwise NotReopened

/-- How often a log says zero. -/
def zeros (rs : List LogRecord) : Nat := rs.countP (fun r => r.sequence = 0)

theorem zeros_cons (r : LogRecord) (rs : List LogRecord) :
    zeros (r :: rs) = zeros rs + if r.sequence = 0 then 1 else 0 := by
  simp [zeros,List.countP_cons]

theorem zeros_pos {rs : List LogRecord} {r : LogRecord} (member : r ∈ rs) (zero : r.sequence = 0) : 0 < zeros rs :=
  List.countP_pos_iff.mpr ⟨r,member,by simp [zero]⟩

/-- A strictly increasing log says zero at most once. -/
theorem increasing_zeros {rs : List LogRecord} (increasing : Increasing rs) : zeros rs ≤ 1 := by
  induction rs with
  | nil => exact Nat.zero_le _
  | cons r rs ih =>
    obtain ⟨first,later⟩ := List.pairwise_cons.mp increasing
    have positive : zeros rs = 0 := by
      refine List.countP_eq_zero.mpr ?_
      intro other member
      have less : r.sequence.toNat < other.sequence.toNat := first other member
      simp only [decide_eq_true_eq]
      intro zero
      rw [zero] at less
      simp at less
    rw [zeros_cons,positive]
    split <;> omega

/-- What recovery checks is order as long as zero is said at most once. -/
theorem ordered_increasing {rs : List LogRecord} (ordered : rs.Pairwise SequenceBefore) (once : zeros rs ≤ 1) :
    Increasing rs := by
  induction rs with
  | nil => exact .nil
  | cons r rs ih =>
    obtain ⟨first,later⟩ := List.pairwise_cons.mp ordered
    rw [zeros_cons] at once
    refine List.pairwise_cons.mpr ⟨?_,ih later (by omega)⟩
    intro other member
    rcases first other member with zero | less
    · rw [if_pos zero] at once
      have notZero : other.sequence ≠ 0 := by
        intro again
        have positive := zeros_pos member again
        omega
      rw [zero]
      exact UInt64.pos_iff_ne_zero.mpr notZero
    · exact less

section
variable [Hashes]

/-- The rules of the log hold of an accepted file exactly when at most one of
    its records has the sequence number zero. -/
theorem accepted_log_iff {file : Bytes} {recovery : Recovery} (accepted : recover file = .ok recovery) :
    (Increasing (records file) ∧ Closed (records file)) ↔ zeros (records file) ≤ 1 := by
  obtain ⟨acc,replayed,-,-⟩ := recover_ok_iff.mp accepted
  have known := replay_ok replayed
  constructor
  · rintro ⟨increasing,-⟩
    exact increasing_zeros increasing
  · intro once
    exact ⟨ordered_increasing known.ordered once,known.closed⟩

end

/-- A log whose two transactions are both numbered zero. -/
def zeroTwice : Bytes :=
  @StoreHeader.encode crates zeroHeader ++ @frames crates [⟨.Commit,1,0,[]⟩,⟨.Commit,2,0,[]⟩]

theorem zero_twice_accepted : (∃ recovery, @recover crates zeroTwice = .ok recovery) ∧
    ¬ (Increasing (@records crates zeroTwice) ∧ Closed (@records crates zeroTwice)) := by
  constructor
  · have accepted : (@recover crates zeroTwice).toBool = true := by decide +kernel
    cases recovered : @recover crates zeroTwice with
    | ok recovery => exact ⟨recovery,rfl⟩
    | error error => rw [recovered] at accepted; cases accepted
  · rintro ⟨increasing,-⟩
    have falls : ¬ Increasing (@records crates zeroTwice) := by decide +kernel
    exact falls increasing

/-- A log of three transactions, the second of which has been given up. -/
def threeTransactions : Bytes := @StoreHeader.encode crates zeroHeader ++ @frames crates [
  ⟨.Delete,1,1,[1,0,0,0,107]⟩,⟨.Delete,1,2,[1,0,0,0,108]⟩,⟨.Commit,1,3,[]⟩,⟨.Delete,2,4,[1,0,0,0,107]⟩,
  ⟨.Delete,3,5,[1,0,0,0,109]⟩,⟨.Commit,3,6,[]⟩]

theorem three_transactions_log : (@records crates threeTransactions).length = 6 ∧
    (@records crates threeTransactions).map (fun r => (r.tx_id,r.sequence)) = [(1,1),(1,2),(1,3),(2,4),(3,5),(3,6)] ∧
    Increasing (@records crates threeTransactions) ∧ Closed (@records crates threeTransactions) := by
  have accepted : (@recover crates threeTransactions).toBool = true := by decide +kernel
  cases recovered : @recover crates threeTransactions with
  | ok recovery => exact ⟨by decide +kernel,by decide +kernel,(@accepted_log_iff crates _ _ recovered).mpr (by decide +kernel)⟩
  | error error => rw [recovered] at accepted; cases accepted

/-- A log with one transaction and the beginning of another record. -/
def commitAndTear : Bytes := @frames crates [⟨.Commit,1,1,[]⟩] ++ [86,68]

theorem commit_and_tear_accepted : ∃ recovery,
    @recover crates (@StoreHeader.encode crates zeroHeader ++ commitAndTear) = .ok recovery := by
  have accepted : (@recover crates (@StoreHeader.encode crates zeroHeader ++ commitAndTear)).toBool = true := by
    decide +kernel
  cases recovered : @recover crates (@StoreHeader.encode crates zeroHeader ++ commitAndTear) with
  | ok recovery => exact ⟨recovery,rfl⟩
  | error error => rw [recovered] at accepted; cases accepted

section
variable [Hashes]

/-- A file cut after its header is accepted if the whole file is. -/
theorem recover_cut {header bytes piece : Bytes} {recovery : Recovery} (size : header.length = STORE_HEADER_LEN)
    (accepted : recover (header ++ bytes) = .ok recovery) (cut : piece <+: bytes) :
    ∃ acc, replay (records (header ++ piece)) = .ok acc ∧
      recover (header ++ piece) = .ok (acc.report (STORE_HEADER_LEN + (frames (records (header ++ piece))).length)) := by
  obtain ⟨whole,replayed,torn,-⟩ := recover_ok_iff.mp accepted
  have shorter : records (header ++ piece) <+: records (header ++ bytes) := by
    rw [records,records,drop_header size,drop_header size]
    exact logFraming.values_cut_front cut
  obtain ⟨acc,reached⟩ := foldlM_front replayed shorter
  have pieceTorn : recordHead (fragment (header ++ piece)) = .torn := by
    rw [fragment,drop_header size] at *
    exact logFraming.cut_torn torn cut
  exact ⟨acc,reached,recover_ok_iff.mpr ⟨acc,reached,pieceTorn,rfl⟩⟩

/-- Where recovery stops, it has read nothing but whole records. -/
theorem take_valid_end {header : Bytes} (bytes : Bytes) (size : header.length = STORE_HEADER_LEN) :
    (header ++ bytes).take (STORE_HEADER_LEN + (frames (records (header ++ bytes))).length) =
      header ++ frames (records (header ++ bytes)) := by
  have body := frames_fragment (header ++ bytes)
  rw [drop_header size] at body
  have front : frames (records (header ++ bytes)) <+: bytes := ⟨_,body⟩
  rw [← size,List.take_length_add_append,← List.prefix_iff_eq_take.mp front]

/-- Cutting an accepted file anywhere after its header leaves an accepted file
    with the records that the cut left whole, and stopping at the last of them
    loses nothing. -/
theorem cut_sound {header bytes : Bytes} {recovery : Recovery} (size : header.length = STORE_HEADER_LEN)
    (accepted : recover (header ++ bytes) = .ok recovery) :
    (∀ piece, piece <+: bytes → ∃ shorter, recover (header ++ piece) = .ok shorter ∧
      records (header ++ piece) <+: records (header ++ bytes) ∧
      shorter.state = committedState (records (header ++ piece)) ∧
      shorter.valid_end = STORE_HEADER_LEN + (frames (records (header ++ piece))).length ∧
      shorter.valid_end ≤ (header ++ piece).length ∧
      ∀ rs, rs <+: records (header ++ bytes) → STORE_HEADER_LEN + (frames rs).length ≤ (header ++ piece).length →
        STORE_HEADER_LEN + (frames rs).length ≤ shorter.valid_end) ∧
    records ((header ++ bytes).take recovery.valid_end) = records (header ++ bytes) ∧
    recover ((header ++ bytes).take recovery.valid_end) = .ok recovery ∧
    ((header ++ bytes).take recovery.valid_end).length = recovery.valid_end := by
  refine ⟨?_,?_⟩
  · intro piece cut
    obtain ⟨acc,replayed,recovered⟩ := recover_cut size accepted cut
    have body := congrArg List.length (frames_fragment (header ++ piece))
    rw [drop_header size,List.length_append] at body
    refine ⟨_,recovered,?_,(replay_ok replayed).state,rfl,?_,?_⟩
    · rw [records,records,drop_header size,drop_header size]
      exact logFraming.values_cut_front cut
    · rw [Progress.report,List.length_append,size]
      dsimp only
      omega
    · intro rs first inside
      rw [List.length_append,size] at inside
      have kept : rs <+: records (header ++ piece) := by
        rw [records,drop_header size] at first ⊢
        exact logFraming.values_cut cut first (by rw [frames] at inside; omega)
      obtain ⟨later,split⟩ := kept
      rw [Progress.report]
      dsimp only
      rw [← split,frames,frames,Framing.encodeAll_append,List.length_append]
      omega
  · obtain ⟨acc,replayed,torn,rfl⟩ := recover_ok_iff.mp accepted
    have taken := take_valid_end bytes size
    rw [Progress.report]
    dsimp only
    rw [taken]
    have fit := records_fit (header ++ bytes)
    have empty : recordHead [] = .torn := recordHead_torn_iff.mpr (.inl (by decide))
    have again := recover_written size fit empty replayed
    rw [List.append_nil] at again
    refine ⟨?_,again,by rw [List.length_append,size]⟩
    have read := logFraming.values_written fit (show logFraming.head [] = .torn from empty)
    rw [List.append_nil] at read
    rw [records,drop_header size]
    exact read

end

theorem commit_and_tear_repaired : ∃ recovery,
    @recover crates (@StoreHeader.encode crates zeroHeader ++ commitAndTear) = .ok recovery ∧
    @recover crates ((@StoreHeader.encode crates zeroHeader ++ commitAndTear).take recovery.valid_end) =
      .ok recovery := by
  obtain ⟨recovery,accepted⟩ := commit_and_tear_accepted
  have sound := @cut_sound crates _ _ _ (@header_length crates zeroHeader) accepted
  exact ⟨recovery,accepted,sound.2.2.1⟩

end VoodooStore
