import VoodooStore.Runs

/-!
# Sessions and crashes

A store's file lives through sessions: each opens it, makes its calls and ends
by closing or by a crash that leaves a first part of the file. Whatever is left,
the next session opens it and finds the transactions whose commit records
survived, each applied as a whole (`sessions_recover`).
-/
namespace VoodooStore
open Effects Frames
set_option linter.unusedSimpArgs false

theorem next_counter_ok {max next : UInt64} (counts : next_counter max = .ok next) : next.toNat = max.toNat + 1 := by
  unfold next_counter at counts
  split at counts
  · rename_i zero
    cases counts
    rw [zero]
    rfl
  · cases added : max.checked_add 1 with
    | none => rw [added] at counts; cases counts
    | some n =>
      rw [added] at counts
      cases counts
      exact u64_checked_add_some added

/-- A number that something exceeds can be counted on from. -/
theorem next_counter_below {max bound : UInt64} (below : max < bound) : ∃ next, next_counter max = .ok next := by
  have less := UInt64.lt_iff_toNat_lt.mp below
  have small := bound.toNat_lt
  have added : max.checked_add 1 = some (max + 1) := if_pos (by rw [show (1 : UInt64).toNat = 1 from rfl]; omega)
  unfold next_counter
  split
  · exact ⟨1,rfl⟩
  · exact ⟨max + 1,by rw [added]⟩

theorem u64_max (a b : UInt64) : max a b = if a ≤ b then b else a := rfl

theorem foldl_max_ge (start : UInt64) (ids : List UInt64) : start ≤ ids.foldl max start ∧ ∀ t ∈ ids, t ≤ ids.foldl max start := by
  induction ids generalizing start with
  | nil => exact ⟨UInt64.le_refl _,by simp⟩
  | cons id ids ih =>
    obtain ⟨first,rest⟩ := ih (max start id)
    have both : start ≤ max start id ∧ id ≤ max start id := by
      rw [u64_max]
      split
      · rename_i less
        exact ⟨less,UInt64.le_refl _⟩
      · rename_i more
        exact ⟨UInt64.le_refl _,UInt64.le_of_lt (UInt64.not_le.mp more)⟩
    refine ⟨UInt64.le_trans both.1 first,?_⟩
    intro t member
    rcases List.mem_cons.mp member with rfl | later
    · exact UInt64.le_trans both.2 first
    · exact rest t later

theorem foldl_max_lt {start bound : UInt64} {ids : List UInt64} (low : start < bound) (below : ∀ t ∈ ids, t < bound) :
    ids.foldl max start < bound := by
  induction ids generalizing start with
  | nil => exact low
  | cons id ids ih =>
    have least : max start id < bound := by
      rw [u64_max]
      split
      · exact below id (by simp)
      · exact low
    refine ih least ?_
    intro t member
    exact below t (by simp [member])

section
variable [Hashes]

/-! ## Files that can be opened -/

/-- A file with a header, an accepted log numbered from one, and counters left. -/
structure FileSound (file : Bytes) : Prop where
  header : ∃ header, HasHeader file header
  torn : recordHead (fragment file) = .torn
  log : ∃ next_tx_id next_sequence, LogSound (records file) next_tx_id next_sequence

theorem Store.Sound.file {s : Store} (sound : s.Sound) : FileSound s.file :=
  ⟨⟨_,sound.header⟩,sound.torn,_,_,sound.log⟩

/-- Cutting a file after its header keeps the records and the commitments that end before the cut. -/
theorem FileSound.take {file : Bytes} (sound : FileSound file) {cut : Nat} (kept : STORE_HEADER_LEN ≤ cut) :
    FileSound (file.take cut) ∧
      commitments (records (file.take cut)) = (commitments (records file)).filter (fun c => c.commit_end ≤ cut) := by
  obtain ⟨header,has⟩ := sound.header
  obtain ⟨next_tx_id,next_sequence,log⟩ := sound.log
  have long := has.long
  have piece : (file.take cut).drop STORE_HEADER_LEN <+: file.drop STORE_HEADER_LEN := by
    rw [List.drop_take]
    exact List.take_prefix _ _
  have first : records (file.take cut) <+: records file := logFraming.values_cut_front piece
  have size := congrArg List.length (frames_fragment (file.take cut))
  rw [List.length_append,List.length_drop,List.length_take] at size
  refine ⟨⟨⟨header,has.take kept⟩,logFraming.cut_torn sound.torn piece,_,_,log.cut first⟩,?_⟩
  refine commitments_cut first ?_ ?_
  · rw [endOf]
    omega
  · intro more start inside
    refine logFraming.values_cut piece start ?_
    have whole := congrArg List.length (frames_fragment file)
    obtain ⟨later,split⟩ := start
    rw [← split,frames,Framing.encodeAll_append] at whole
    simp only [List.length_append,List.length_drop] at whole
    rw [endOf,frames] at inside
    rw [List.length_drop,List.length_take]
    omega

/-- What repair leaves of a file. -/
theorem repaired_records {file : Bytes} (long : STORE_HEADER_LEN ≤ file.length) (options : StoreOptions) :
    records (repaired options (endOf (records file)) file) = records file ∧
      fragment (repaired options (endOf (records file)) file) =
        if options.repair_torn_tail then [] else fragment file := by
  have size := congrArg List.length (frames_fragment file)
  rw [List.length_append,List.length_drop] at size
  have ends : endOf (records file) + (fragment file).length = file.length := by
    rw [endOf]
    omega
  unfold repaired
  by_cases repair : options.repair_torn_tail = true
  · by_cases torn : endOf (records file) < file.length
    · rw [if_pos ⟨torn,repair⟩,if_pos repair]
      have headSize : (file.take STORE_HEADER_LEN).length = STORE_HEADER_LEN := by
        rw [List.length_take]
        omega
      have cut := take_valid_end (file.drop STORE_HEADER_LEN) headSize
      rw [List.take_append_drop] at cut
      have fit := records_fit file
      have empty : logFraming.head [] = .torn := recordHead_nil
      have read := logFraming.values_written fit empty
      have left := logFraming.rest_written fit empty
      rw [List.append_nil] at read left
      rw [endOf,cut,records,fragment,drop_header headSize]
      exact ⟨read,left⟩
    · have none : fragment file = [] := List.length_eq_zero_iff.mp (by omega)
      rw [if_neg (fun both => torn both.1),if_pos repair]
      exact ⟨rfl,none⟩
  · rw [if_neg (fun both => repair both.2),if_neg repair]
    exact ⟨rfl,rfl⟩

theorem repaired_header {file : Bytes} {header : StoreHeader} (has : HasHeader file header) (options : StoreOptions)
    (rs : List LogRecord) : HasHeader (repaired options (endOf rs) file) header := by
  unfold repaired
  split
  · exact has.take (by rw [endOf]; omega)
  · exact has

/-- The file that opening starts with has the records of the one it was given. -/
theorem Started.records {file started : Bytes} {header : StoreHeader} (starts : Started file started header) :
    records started = records file ∧ fragment started = fragment file := by
  rcases starts.2 with rfl | ⟨rfl,rfl⟩
  · exact ⟨rfl,rfl⟩
  · have empty : header.encode.drop STORE_HEADER_LEN = ([] : Bytes).drop STORE_HEADER_LEN := by
      rw [← header_length header,List.drop_length,List.drop_nil]
    rw [VoodooStore.records,VoodooStore.records,fragment,fragment,empty]
    exact ⟨rfl,rfl⟩

theorem records_nil : records [] = [] ∧ fragment [] = [] := by
  have empty : logFraming.head [] = .torn := recordHead_nil
  rw [records,fragment,List.drop_nil]
  exact ⟨logFraming.values_torn empty,logFraming.rest_torn empty⟩

/-- Opening a sound file, or none, gives a sound store with the same log. -/
theorem open_sound {options : StoreOptions} {file started : Bytes} {store : Store} {recovery : Recovery}
    (opened : Opened options file store recovery started) (ready : file = [] ∨ FileSound file) :
    store.Sound ∧ records store.file = records file ∧
      fragment store.file = if options.repair_torn_tail then [] else fragment file := by
  obtain ⟨sameRecords,sameFragment⟩ := opened.starts.records
  have torn : recordHead (fragment file) = .torn := by
    rcases ready with rfl | sound
    · rw [records_nil.2]
      exact recordHead_nil
    · exact sound.torn
  have numbered : Increasing (records file) ∧ ∀ r ∈ records file, 0 < r.sequence := by
    rcases ready with rfl | sound
    · rw [records_nil.1]
      exact ⟨.nil,by simp⟩
    · obtain ⟨_,_,log⟩ := sound.log
      exact ⟨log.increasing,log.positive⟩
  obtain ⟨acc,replayed,-,rfl⟩ := recover_ok_iff.mp opened.recovers
  rw [sameRecords] at replayed
  have known := replay_ok replayed
  have has := opened.starts.1
  have cut := opened.file
  have ends : (acc.report (STORE_HEADER_LEN + (frames (records started)).length)).valid_end = endOf (records started) := rfl
  rw [ends] at cut
  obtain ⟨read,left⟩ := repaired_records has.long options
  rw [← cut,sameRecords] at read
  rw [← cut,sameFragment] at left
  have txCounter := next_counter_ok opened.next_tx_id
  have sequenceCounter := next_counter_ok opened.next_sequence
  have txMax : acc.max_tx_id < store.next_tx_id := UInt64.lt_iff_toNat_lt.mpr (by
    dsimp only [Progress.report] at txCounter
    omega)
  have sequenceMax : acc.max_sequence < store.next_sequence := UInt64.lt_iff_toNat_lt.mpr (by
    dsimp only [Progress.report] at sequenceCounter
    omega)
  refine ⟨⟨?_,?_,⟨?_,?_,?_,?_,?_⟩,?_⟩,read,left⟩
  · rw [cut]
    exact repaired_header has options _
  · rw [left]
    split
    · exact recordHead_nil
    · exact torn
  · rw [read]
    exact ⟨acc,replayed⟩
  · rw [read]
    exact numbered.1
  · rw [read]
    exact numbered.2
  · rw [read,← known.sequence]
    exact sequenceMax
  · rw [read]
    intro r member
    have bound := (foldl_max_ge 0 ((records file).map LogRecord.tx_id)).2 r.tx_id (List.mem_map_of_mem member)
    rw [← known.txId] at bound
    exact UInt64.lt_of_le_of_lt bound txMax
  · rw [opened.state,read]
    exact known.state

/-- A sound file, or none, opens as long as no call fails. -/
theorem sound_opens {io : Io} {file : Bytes} (path : Path) (options : StoreOptions) (faultless : io.Faultless)
    (ready : file = [] ∨ FileSound file) : ∃ store left, open_with_options io path options file = .ok store left := by
  refine open_succeeds faultless (ready.imp_right FileSound.header) ?_
  intro started header starts
  obtain ⟨sameRecords,sameFragment⟩ := starts.records
  have log : ∃ next_tx_id next_sequence, LogSound (records file) next_tx_id next_sequence := by
    rcases ready with rfl | sound
    · rw [records_nil.1]
      exact ⟨1,1,⟨_,rfl⟩,.nil,by simp,by decide,by simp⟩
    · exact sound.log
  have torn : recordHead (fragment started) = .torn := by
    rw [sameFragment]
    rcases ready with rfl | sound
    · rw [records_nil.2]
      exact recordHead_nil
    · exact sound.torn
  obtain ⟨next_tx_id,next_sequence,sound⟩ := log
  obtain ⟨acc,replayed⟩ := sound.replays
  have known := replay_ok replayed
  have positive : 0 < next_tx_id ∨ records file = [] := by
    cases inLog : records file with
    | nil => exact .inr rfl
    | cons r rs =>
      rw [inLog] at sound
      exact .inl (UInt64.lt_of_le_of_lt UInt64.zero_le (sound.identified r (by simp)))
  have txCounts : ∃ next, next_counter acc.max_tx_id = .ok next := by
    rcases positive with some_tx | none
    · refine next_counter_below (show acc.max_tx_id < next_tx_id from ?_)
      rw [known.txId]
      refine foldl_max_lt some_tx ?_
      intro t member
      obtain ⟨r,inLog,rfl⟩ := List.mem_map.mp member
      exact sound.identified r inLog
    · rw [known.txId,none]
      exact ⟨1,rfl⟩
  have sequenceCounts : ∃ next, next_counter acc.max_sequence = .ok next := by
    refine next_counter_below (show acc.max_sequence < next_sequence from ?_)
    rw [known.sequence]
    exact sound.last
  obtain ⟨nextTx,txIs⟩ := txCounts
  obtain ⟨nextSequence,sequenceIs⟩ := sequenceCounts
  rw [← sameRecords] at replayed
  exact ⟨_,nextTx,nextSequence,recover_ok_iff.mpr ⟨acc,replayed,torn,rfl⟩,txIs,sequenceIs⟩

/-! ## Sessions -/

/-- How a session ends: a crash leaves the first bytes of the file. -/
inductive Finish
  | Close
  | Crash (cut : Nat)

/-- A session: the file is opened, calls are made, and it ends. -/
structure Visit where
  io : Io
  path : Path
  options : StoreOptions
  calls : List (Io × Event)
  finish : Finish

/-- No call of the session fails, it repairs a torn tail, and its crash spares the header. -/
structure Visit.Faultless (visit : Visit) : Prop where
  opens : visit.io.Faultless
  repairs : visit.options.repair_torn_tail = true
  calls : ∀ call ∈ visit.calls, call.1.Faultless
  spares : ∀ cut, visit.finish = .Crash cut → STORE_HEADER_LEN ≤ cut

/-- What sessions leave: the file, and the commits whose records are inside it. -/
structure Remains where
  file : Bytes
  history : List Entry

def Visit.run (visit : Visit) (left : Remains) : Except EngineError Remains :=
  match open_with_options visit.io visit.path visit.options left.file with
  | .error error _ => .error error
  | .ok store _ =>
    let run := (Run.mk (.Idle store) left.history).steps visit.calls
    match visit.finish with
    | .Close => .ok ⟨run.session.store.file,run.history⟩
    | .Crash cut =>
      .ok ⟨run.session.store.file.take cut,run.history.filter (fun entry => entry.commit_end ≤ cut)⟩

/-- Sessions one after another, on a file that does not exist at first. -/
def sessions (visits : List Visit) : Except EngineError Remains :=
  visits.foldlM (fun left visit => visit.run left) ⟨[],[]⟩

/-- The file is sound and commits what the history says. -/
structure Remains.Sound (left : Remains) : Prop where
  file : left.file = [] ∨ FileSound left.file
  commitments : commitments (records left.file) = left.history.map Entry.toCommitment

/-- Opening what sound sessions left finds the map that their commits make. -/
theorem Remains.Sound.opens {left : Remains} (sound : left.Sound) {io : Io} {path : Path} {options : StoreOptions}
    {store : Store} {file : Bytes} (opened : open_with_options io path options left.file = .ok store file) :
    Run.Sound [] ⟨.Idle store,left.history⟩ ∧
      fragment store.file = if options.repair_torn_tail then [] else fragment left.file := by
  obtain ⟨-,-,recovery,started,opens⟩ := open_ok opened
  obtain ⟨stored,read,whole⟩ := open_sound opens sound.file
  refine ⟨⟨stored,?_⟩,whole⟩
  rw [List.nil_append,← sound.commitments]
  exact congrArg VoodooStore.commitments read

/-- A session without faults runs to its end and leaves a sound file. -/
theorem visit_sound {left : Remains} {visit : Visit} (sound : left.Sound) (faultless : visit.Faultless) :
    ∃ next, visit.run left = .ok next ∧ next.Sound := by
  obtain ⟨store,file,opened⟩ := sound_opens visit.path visit.options faultless.opens sound.file
  obtain ⟨started,whole⟩ := sound.opens opened
  rw [if_pos faultless.repairs] at whole
  have writes : ∀ call ∈ visit.calls, call.1.WritesWhole := fun call member => (faultless.calls call member).writes_whole
  have confirms : ∀ call ∈ visit.calls, ∀ tx_id, call.1.fails (.commit_sync tx_id) = none := by
    intro call member tx_id
    exact (faultless.calls call member).1 _
  obtain ⟨ended,-⟩ := steps_whole started whole writes confirms
  have stored := ended.session.of_store
  have commits := ended.commitments
  rw [List.nil_append] at commits
  unfold Visit.run
  rw [opened]
  dsimp only
  cases finish : visit.finish with
  | Close => exact ⟨_,rfl,.inr stored.file,commits⟩
  | Crash cut =>
    obtain ⟨kept,survive⟩ := stored.file.take (faultless.spares cut finish)
    refine ⟨_,rfl,.inr kept,?_⟩
    dsimp only
    rw [survive,commits,List.filter_map]
    rfl

theorem sessions_sound {visits : List Visit} (faultless : ∀ visit ∈ visits, visit.Faultless) :
    ∃ left, sessions visits = .ok left ∧ left.Sound := by
  induction visits using List.reverseRecOn with
  | nil => exact ⟨_,rfl,.inl rfl,by rw [records_nil.1]; rfl⟩
  | append_singleton visits visit ih =>
    obtain ⟨left,ran,sound⟩ := ih (fun other member => faultless other (by simp [member]))
    obtain ⟨next,runs,nextSound⟩ := visit_sound sound (faultless visit (by simp))
    refine ⟨next,?_,nextSound⟩
    rw [sessions] at ran ⊢
    rw [List.foldlM_append,ran]
    simp only [ok_bind,List.foldlM_cons,List.foldlM_nil,runs,pure_is_ok]

/-- After any sessions without faults, each ended by closing or by a crash that
    cut the file anywhere behind its header, the store opens again, and its map
    is the fold of the commits whose records lie inside what was left. -/
theorem sessions_recover {visits : List Visit} (faultless : ∀ visit ∈ visits, visit.Faultless) :
    ∃ left, sessions visits = .ok left ∧ ∀ io path options, io.Faultless → options.repair_torn_tail = true →
      ∃ store file, open_with_options io path options left.file = .ok store file ∧
        store.state = applyCommitments ∅ (left.history.map Entry.toCommitment) := by
  obtain ⟨left,ran,sound⟩ := sessions_sound faultless
  refine ⟨left,ran,?_⟩
  intro io path options quiet repairs
  obtain ⟨store,file,opened⟩ := sound_opens path options quiet sound.file
  obtain ⟨run,-⟩ := sound.opens opened
  exact ⟨store,file,opened,run.state⟩

end

/-- An oracle under which nothing fails. -/
def calm : Io where
  fails := fun _ => none
  written := fun _ => 0
  already_open := false
  generate_store_id := .ok (.filled 0)
  unix_time_ms := .ok 0
  walk := id
  walk_perm := fun _ => .refl _

theorem calm_faultless : calm.Faultless := ⟨fun _ => rfl,rfl,⟨_,rfl⟩,_,rfl⟩

/-- The disk confirms no commit. -/
def unsynced : Io := { calm with
  fails := fun call => match call with
    | .commit_sync _ => some ⟨.Other,"input/output error"⟩
    | _ => none }

/-- A session that deletes a key and commits, begins to delete another, and
    crashes in the middle of that record. -/
def crashingVisit : Visit where
  io := calm
  path := ["a.vstore"]
  options := .default
  calls := [(calm,.Begin),(calm,.Delete [107]),(calm,.Commit),(calm,.Begin),(calm,.Delete [108])]
  finish := .Crash 250

theorem crashing_visit_recovers : ∃ left, @sessions crates [crashingVisit,crashingVisit] = .ok left ∧
    ∃ store file, @open_with_options crates calm ["a.vstore"] .default left.file = .ok store file ∧
      store.state = applyCommitments ∅ (left.history.map Entry.toCommitment) := by
  have faultless : ∀ visit ∈ [crashingVisit,crashingVisit], visit.Faultless := by
    intro visit member
    have same : visit = crashingVisit := by simpa using member
    rw [same]
    refine ⟨calm_faultless,rfl,?_,?_⟩
    · intro call inCalls
      simp only [crashingVisit,List.mem_cons,List.not_mem_nil,or_false] at inCalls
      rcases inCalls with rfl | rfl | rfl | rfl | rfl <;> exact calm_faultless
    · intro cut finish
      cases finish
      decide
  obtain ⟨left,ran,opens⟩ := @sessions_recover crates _ faultless
  exact ⟨left,ran,opens calm ["a.vstore"] .default calm_faultless rfl⟩

end VoodooStore
