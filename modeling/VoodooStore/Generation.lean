import VoodooStore.Compaction

/-!
# Generations

A generation is a rewrite that keeps the identity of its store. Behind the
rewritten log stands a marker, an empty commit whose numbers are above those of
the source and of the rewrite. So the numbers that the generation gives are
above all those in the source's log; they are above those of the preserved
changes too, unless the source is a copy whose changes have higher numbers than
its log (`rewrites_preserve`).
-/
namespace VoodooStore
open Effects Frames
set_option linter.unusedSimpArgs false

structure GenerationReport where
  store_id : ByteArr 16
  source_bytes : Nat
  generation_bytes : Nat
  keys : Nat
  high_water_tx_id : UInt64
  high_water_sequence : UInt64
  deriving DecidableEq

inductive GenerationError
  | Store (error : EngineError)
  | Log (error : StoreError)
  | Io (error : IoError)
  | DestinationExists
  | DestinationIsSource
  | CounterExhausted
  | VerificationMismatch
  | Randomness (message : String)
  | TemporaryNameExhausted
  deriving DecidableEq

/-- The calls of `Store::backup_to`, in order. -/
inductive BackupCall
  | sync
  | canonicalize
  | try_clone
  | seek
  | open_target
  | copy
  | sync_target
  deriving DecidableEq

/-- The calls that stamp a rewritten store as a generation, in order. -/
inductive StampCall
  | open_file
  | seek_start
  | write_header
  | seek_end
  | write_marker
  | sync
  deriving DecidableEq

/-- What the world decides while a generation is built. A call that writes and
    fails leaves as much as `written` says. -/
structure GenerationIo where
  flush : Io
  create : Path → Option IoError
  nonce : Nat → Except String UInt64
  backup : BackupCall → Option IoError
  copied : Nat
  read_log : Path → Option IoError
  build : Io
  stamp : StampCall → Option IoError
  written : StampCall → Nat
  verify : Io
  remove_file : Path → Option IoError

/-- `create_new`: a file that is there already is left alone. -/
def create_new {ε : Type} (fails : Option IoError) (exists_error : ε) (wrap : IoError → ε) (path : Path) : EStateM ε Disk Unit := do
  if ((← get) path).isSome then throw exists_error
  else
    on_path fails wrap
    modify (Disk.write · path [])

def reserve_destination (io : GenerationIo) (destination : Path) : EStateM GenerationError Disk Unit :=
  create_new (io.create destination) .DestinationExists .Io destination

/-- Sixteen hexadecimal digits. -/
def hex16 (value : UInt64) : String :=
  let digits := Nat.toDigits 16 value.toNat
  String.ofList (List.replicate (16 - digits.length) '0' ++ digits)

/-- A name beside the destination for the image of the source. -/
def source_image_candidate (destination : Path) (suffix : UInt64) : Path :=
  let base := match destination.getLast? with
    | none => "generation"
    | some name => if name = ".." then "generation" else name
  destination.dropLast ++ ["." ++ base ++ ".source-" ++ hex16 suffix ++ ".tmp"]

/-- The loop of `reserve_source_image`, with the attempts that are left. -/
def reserve_source_image (io : GenerationIo) (destination : Path) : Nat → EStateM GenerationError Disk Path
  | 0 => throw .TemporaryNameExhausted
  | attempts + 1 => do
    let suffix ← lift ((io.nonce attempts).mapError .Randomness)
    let candidate := source_image_candidate destination suffix
    if ((← get) candidate).isSome then reserve_source_image io destination attempts
    else
      on_path (io.create candidate) .Io
      modify (Disk.write · candidate [])
      return candidate

def backup_to (io : GenerationIo) (self : Store) (destination : Path) : EStateM EngineError Disk Nat := do
  on_path (io.backup .sync) .Io
  if destination = self.path then throw .BackupDestinationIsSource
  else
    (if ((← get) destination).isSome then on_path (io.backup .canonicalize) .Io else pure ())
    on_path (io.backup .try_clone) .Io
    on_path (io.backup .seek) .Io
    on_path (io.backup .open_target) .Io
    match io.backup .copy with
    | some error =>
      modify (Disk.write · destination (self.file.take io.copied))
      throw (.Io error)
    | none =>
      modify (Disk.write · destination self.file)
      on_path (io.backup .sync_target) .Io
      return self.file.length

/-- A write at a position of the file, which may fail in the middle. -/
def stamp_write (io : GenerationIo) (call : StampCall) (path : Path) (place : Bytes → Nat) (bytes : Bytes) :
    EStateM GenerationError Disk Unit := do
  let file ← lift (((← get).find path).mapError .Io)
  let patched (part : Bytes) : Bytes := file.take (place file) ++ part ++ file.drop (place file + part.length)
  match io.stamp call with
  | some error =>
    modify (Disk.write · path (patched (bytes.take (io.written call))))
    throw (.Io error)
  | none => modify (Disk.write · path (patched bytes))

/-- The header of the source over that of the rewrite, and the marker behind its log. -/
def stamp (io : GenerationIo) (destination : Path) (header marker : Bytes) : EStateM GenerationError Disk Unit := do
  on_path (io.stamp .open_file) .Io
  on_path (io.stamp .seek_start) .Io
  stamp_write io .write_header destination (fun _ => 0) header
  on_path (io.stamp .seek_end) .Io
  stamp_write io .write_marker destination List.length marker
  on_path (io.stamp .sync) .Io

/-- `checked_add(1)` on a counter of the log -/
def past (counter : UInt64) : Except GenerationError UInt64 :=
  match counter.checked_add 1 with
  | none => .error .CounterExhausted
  | some next => .ok next

theorem stamp_write_ok {io : GenerationIo} {call : StampCall} {path : Path} {place : Bytes → Nat} {bytes file : Bytes}
    {disk left : Disk} {x : Unit} (found : disk path = some file)
    (done : stamp_write io call path place bytes disk = .ok x left) :
    left = disk.write path (file.take (place file) ++ bytes ++ file.drop (place file + bytes.length)) := by
  unfold stamp_write at done
  rw [get_bind,find_ok.mpr found,mapError_ok,bind_of_ok (lift_ok _ _)] at done
  dsimp only at done
  cases fails : io.stamp call with
  | some error => rw [fails] at done; cases done
  | none =>
    rw [fails] at done
    cases done
    rfl

theorem stamp_ok {io : GenerationIo} {destination : Path} {header marker file : Bytes} {disk left : Disk} {x : Unit}
    (found : disk destination = some file) (done : stamp io destination header marker disk = .ok x left) :
    left = disk.write destination (header ++ (file.drop header.length ++ marker)) := by
  unfold stamp at done
  obtain ⟨-,done⟩ := on_path_bind_ok.mp done
  obtain ⟨-,done⟩ := on_path_bind_ok.mp done
  obtain ⟨_,stamped,first,done⟩ := bind_ok.mp done
  have headed := stamp_write_ok found first
  rw [List.take_zero,List.nil_append,Nat.zero_add] at headed
  obtain ⟨-,done⟩ := on_path_bind_ok.mp done
  obtain ⟨_,marked,second,done⟩ := bind_ok.mp done
  have there : stamped destination = some (header ++ file.drop header.length) := by rw [headed,write_same]
  have ended := stamp_write_ok there second
  rw [List.take_length,List.drop_eq_nil_of_le (Nat.le_add_right _ _),List.append_nil,headed,write_write,
    List.append_assoc] at ended
  rw [(on_path_ok.mp done).2,ended]

theorem create_new_ok {ε : Type} {fails : Option IoError} {exists_error : ε} {wrap : IoError → ε} {path : Path}
    {disk left : Disk} {x : Unit} (done : create_new fails exists_error wrap path disk = .ok x left) :
    disk path = none ∧ left = disk.write path [] := by
  unfold create_new at done
  rw [get_bind] at done
  split at done
  · cases done
  · rename_i free
    obtain ⟨-,done⟩ := on_path_bind_ok.mp done
    cases done
    exact ⟨by simpa using free,rfl⟩

theorem reserve_source_image_ok {io : GenerationIo} {destination image : Path} {attempts : Nat} {disk left : Disk}
    (done : reserve_source_image io destination attempts disk = .ok image left) :
    disk image = none ∧ left = disk.write image [] := by
  induction attempts with
  | zero => cases done
  | succ attempts ih =>
    rw [reserve_source_image] at done
    obtain ⟨suffix,-,done⟩ := lift_bind_ok.mp done
    rw [get_bind] at done
    split at done
    · exact ih done
    · rename_i free
      obtain ⟨-,done⟩ := on_path_bind_ok.mp done
      cases done
      exact ⟨by simpa using free,rfl⟩

theorem backup_ok {io : GenerationIo} {self : Store} {destination : Path} {disk left : Disk} {bytes : Nat}
    (done : backup_to io self destination disk = .ok bytes left) : left = disk.write destination self.file := by
  unfold backup_to at done
  obtain ⟨-,done⟩ := on_path_bind_ok.mp done
  split at done
  · cases done
  · rw [get_bind] at done
    obtain ⟨_,middle,canonical,done⟩ := bind_ok.mp done
    have same : middle = disk := by
      split at canonical
      · exact (on_path_ok.mp canonical).2
      · cases canonical
        rfl
    obtain ⟨-,done⟩ := on_path_bind_ok.mp done
    obtain ⟨-,done⟩ := on_path_bind_ok.mp done
    obtain ⟨-,done⟩ := on_path_bind_ok.mp done
    cases fails : io.backup .copy with
    | some error => rw [fails] at done; cases done
    | none =>
      rw [fails] at done
      dsimp only at done
      rw [modify_bind] at done
      obtain ⟨-,done⟩ := on_path_bind_ok.mp done
      cases done
      rw [same]

theorem past_ok {counter next : UInt64} (counts : past counter = .ok next) : next.toNat = counter.toNat + 1 := by
  unfold past at counts
  cases added : counter.checked_add 1 with
  | none => rw [added] at counts; cases counts
  | some value =>
    rw [added] at counts
    cases counts
    exact u64_checked_add_some added

/-! ## The highest numbers of a log -/

/-- The highest transaction number of a log. -/
def maxTxId (rs : List LogRecord) : UInt64 := (rs.map LogRecord.tx_id).foldl max 0

/-- The highest record number of a log. -/
def maxSequence (rs : List LogRecord) : UInt64 := (rs.map LogRecord.sequence).foldl max 0

theorem le_max_numbers (a b : UInt64) : a.toNat ≤ (max a b).toNat ∧ b.toNat ≤ (max a b).toNat := by
  rw [u64_max]
  split
  · rename_i less
    exact ⟨UInt64.le_iff_toNat_le.mp less,Nat.le_refl _⟩
  · rename_i more
    exact ⟨Nat.le_refl _,Nat.le_of_lt (UInt64.lt_iff_toNat_lt.mp (UInt64.not_le.mp more))⟩

theorem tx_id_le_max {rs : List LogRecord} {r : LogRecord} (member : r ∈ rs) : r.tx_id.toNat ≤ (maxTxId rs).toNat :=
  UInt64.le_iff_toNat_le.mp ((foldl_max_ge 0 _).2 r.tx_id (List.mem_map_of_mem member))

theorem sequence_le_max {rs : List LogRecord} {r : LogRecord} (member : r ∈ rs) :
    r.sequence.toNat ≤ (maxSequence rs).toNat :=
  UInt64.le_iff_toNat_le.mp ((foldl_max_ge 0 _).2 r.sequence (List.mem_map_of_mem member))

theorem first_max {rs : List LogRecord} (first : ∀ r ∈ rs, r.tx_id = 1) (some_records : rs ≠ []) : maxTxId rs = 1 := by
  have below : maxTxId rs < 2 := by
    refine foldl_max_lt (by decide) ?_
    intro t member
    obtain ⟨r,inLog,rfl⟩ := List.mem_map.mp member
    rw [first r inLog]
    decide
  obtain ⟨r,inLog⟩ := List.exists_mem_of_ne_nil _ some_records
  have above := tx_id_le_max inLog
  rw [first r inLog] at above
  have less := UInt64.lt_iff_toNat_lt.mp below
  have one : (1 : UInt64).toNat = 1 := rfl
  have two : (2 : UInt64).toNat = 2 := rfl
  exact UInt64.toNat_inj.mp (by omega)

theorem max_numbers_lt {a b : UInt64} {bound : Nat} (left : a.toNat < bound) (right : b.toNat < bound) :
    (max a b).toNat < bound := by
  rw [u64_max]
  split
  · exact right
  · exact left

section
variable [Hashes]

/-- The loop of `log_high_water`, on the bytes that remain. -/
def high_water (remaining : Bytes) (max_tx_id max_sequence : UInt64) : Except GenerationError (UInt64 × UInt64) :=
  if remaining.length < HEADER_LEN then .ok (max_tx_id,max_sequence) else
  match _found : encoded_record_len_from_prefix remaining with
  | .error .TruncatedRecord => .ok (max_tx_id,max_sequence)
  | .error error => .error (.Log error)
  | .ok record_len =>
    if remaining.length < record_len then .ok (max_tx_id,max_sequence) else do
    let record ← (LogRecord.decode (remaining.take record_len)).mapError .Log
    high_water (remaining.drop record_len) (max max_tx_id record.tx_id) (max max_sequence record.sequence)
termination_by remaining.length
decreasing_by
  have positive := record_len_ge _found
  rw [List.length_drop]
  omega

def log_high_water (io : GenerationIo) (path : Path) : EStateM GenerationError Disk (UInt64 × UInt64) := do
  on_path (io.read_log path) .Io
  let file ← lift (((← get).find path).mapError .Io)
  lift (high_water (file.drop STORE_HEADER_LEN) 0 0)

def build_generation (io : GenerationIo) (self : Store) (destination source_image : Path) (source_bytes : Nat) :
    EStateM GenerationError Disk GenerationReport := do
  let source ← log_high_water io source_image
  let entries := Store.scan_prefix self []
  rethrow .Store (rewrite_to io.build entries destination)
  let generation ← log_high_water io destination
  let high_water_tx_id ← lift (past (max source.1 generation.1))
  let high_water_sequence ← lift (past (max source.2 generation.2))
  let marker ← lift ((LogRecord.mk .Commit high_water_tx_id high_water_sequence []).encode.mapError .Log)
  stamp io destination self.header.encode marker
  let verification ← rethrow .Store (verify io.verify destination)
  if verification.has_torn_tail ∨ verification.keys ≠ entries.length ∨
      verification.header.store_id ≠ self.header.store_id then throw .VerificationMismatch
  else return {
    store_id := self.header.store_id
    source_bytes := source_bytes
    generation_bytes := verification.file_bytes
    keys := entries.length
    high_water_tx_id := high_water_tx_id
    high_water_sequence := high_water_sequence }

def compact_generation_to (io : GenerationIo) (self : Store) (destination : Path) :
    EStateM GenerationError Disk GenerationReport := do
  rethrow .Store (sync_file io.flush .flush self.options.durability)
  if destination = self.path then throw .DestinationIsSource
  else
    let discard (path : Path) : EStateM GenerationError Disk Unit := try_remove_file (io.remove_file path) path
    reserve_destination io destination
    let source_image ← orElseDo (reserve_source_image io destination 16) (discard destination)
    let source_bytes ← orElseDo (rethrow .Store (backup_to io self source_image))
      (do discard source_image; discard destination)
    let report ← orElseDo (build_generation io self destination source_image source_bytes)
      (do discard source_image; discard destination)
    discard source_image
    return report

/-! ## What is read off a log -/

theorem high_water_ok {remaining : Bytes} {a b x y : UInt64} (read : high_water remaining a b = .ok (x,y)) :
    x = ((logFraming.values remaining).map LogRecord.tx_id).foldl max a ∧
      y = ((logFraming.values remaining).map LogRecord.sequence).foldl max b := by
  have ended : ∀ {stream : Bytes} {a b x y : UInt64}, recordHead stream = .torn →
      (Except.ok (a,b) : Except GenerationError _) = .ok (x,y) →
      x = ((logFraming.values stream).map LogRecord.tx_id).foldl max a ∧
        y = ((logFraming.values stream).map LogRecord.sequence).foldl max b := by
    intro stream a b x y torn same
    cases same
    rw [logFraming.values_torn torn]
    exact ⟨rfl,rfl⟩
  induction size : remaining.length using Nat.strong_induction_on generalizing remaining a b with
  | _ size ih =>
    subst size
    rw [high_water] at read
    split at read
    · rename_i short
      exact ended (recordHead_torn_iff.mpr (.inl short)) read
    · rename_i long
      split at read
      · rename_i refused
        rw [record_len_long (by omega)] at refused
        split at refused <;> cases refused
      · cases read
      · rename_i record_len found
        split at read
        · rename_i short
          exact ended (recordHead_short found short) read
        · rename_i whole
          obtain ⟨record,decoded,rest⟩ := bind_ok_iff.mp read
          rw [mapError_eq_ok] at decoded
          obtain ⟨fits,spelled⟩ := decode_canonical decoded
          have least := record_len_ge found
          have split : remaining = record.frame ++ remaining.drop record_len := by
            rw [← spelled,List.take_append_drop]
          have later := ih (remaining.drop record_len).length (by rw [List.length_drop]; omega) rest rfl
          have values : logFraming.values remaining = record :: logFraming.values (remaining.drop record_len) := by
            conv => lhs; rw [split]
            exact logFraming.values_frame fits _
          rw [values]
          exact later

theorem log_high_water_ok {io : GenerationIo} {path : Path} {disk left : Disk} {file : Bytes} {x y : UInt64}
    (found : disk path = some file) (read : log_high_water io path disk = .ok (x,y) left) :
    left = disk ∧ x = maxTxId (records file) ∧ y = maxSequence (records file) := by
  unfold log_high_water at read
  obtain ⟨-,read⟩ := on_path_bind_ok.mp read
  rw [get_bind,find_ok.mpr found,mapError_ok,bind_of_ok (lift_ok _ _)] at read
  obtain ⟨scanned,same⟩ := lift_eq_ok.mp read
  exact ⟨same,high_water_ok scanned⟩

/-! ## What a generation is -/

/-- A file with the identity and the map of a store: its log is that of a
    rewrite and then a marker above the log of the store. -/
structure Generated (source : Store) (file : Bytes) (rs : List LogRecord) (marker : LogRecord) : Prop where
  header : ∃ header, HasHeader file header ∧ header.store_id = source.header.store_id
  read : records file = rs ++ [marker]
  whole : fragment file = []
  recovers : ∃ recovery, recover file = .ok recovery ∧ recovery.state = source.state
  first : ∀ r ∈ rs, r.tx_id = 1
  written : source.state ≠ ∅ ↔ rs ≠ []
  increasing : Increasing rs
  positive : ∀ r ∈ rs, 0 < r.sequence
  last : (lastSequence rs).toNat ≤ source.state.size + 1
  commit : marker.kind = .Commit ∧ marker.payload = []
  tx_id : marker.tx_id.toNat = (max (maxTxId (records source.file)) (maxTxId rs)).toNat + 1
  sequence : marker.sequence.toNat = (max (maxSequence (records source.file)) (maxSequence rs)).toNat + 1

theorem stamped_records {header file : Bytes} {marker : LogRecord} (size : header.length = STORE_HEADER_LEN)
    (whole : fragment file = []) (fits : marker.Fits) :
    records (header ++ (file.drop header.length ++ marker.frame)) = records file ++ [marker] ∧
      fragment (header ++ (file.drop header.length ++ marker.frame)) = [] := by
  have body := frames_fragment file
  rw [whole,List.append_nil] at body
  have all : file.drop header.length ++ marker.frame = frames (records file ++ [marker]) := by
    rw [size,← body]
    simp [frames,logFraming]
  have fit : ∀ r ∈ records file ++ [marker], r.Fits := by
    intro r member
    rcases List.mem_append.mp member with old | new
    · exact records_fit file r old
    · rw [List.mem_singleton.mp new]
      exact fits
  have nothing : logFraming.head [] = .torn := recordHead_nil
  have read := logFraming.values_written fit nothing
  have left := logFraming.rest_written fit nothing
  rw [List.append_nil] at read left
  rw [all,records,fragment,drop_header size]
  exact ⟨read,left⟩

theorem build_generation_ok {io : GenerationIo} {self : Store} {destination image : Path} {bytes : Nat} {disk left : Disk}
    {report : GenerationReport} (source : disk image = some self.file) (free : disk destination = some [])
    (done : build_generation io self destination image bytes disk = .ok report left) :
    ∃ file rs marker, left = disk.write destination file ∧ Generated self file rs marker := by
  unfold build_generation at done
  obtain ⟨⟨sourceTx,sourceSequence⟩,afterSource,readSource,done⟩ := bind_ok.mp done
  obtain ⟨rfl,rfl,rfl⟩ := log_high_water_ok source readSource
  dsimp only at done
  obtain ⟨_,rewrittenDisk,rewrites,done⟩ := bind_ok.mp done
  rw [rethrow_ok,scan_all] at rewrites
  obtain ⟨file,rfl,rewritten⟩ := rewrite_ok (by rw [free]; rfl) rewrites
  obtain ⟨⟨tx,sequence⟩,afterRewrite,readRewrite,done⟩ := bind_ok.mp done
  obtain ⟨rfl,rfl,rfl⟩ := log_high_water_ok (write_same _ _ _) readRewrite
  dsimp only at done
  obtain ⟨markerTx,txIs,done⟩ := lift_bind_ok.mp done
  obtain ⟨markerSequence,sequenceIs,done⟩ := lift_bind_ok.mp done
  obtain ⟨marker,spelled,done⟩ := lift_bind_ok.mp done
  have fits : (LogRecord.mk .Commit markerTx markerSequence []).Fits := by simp [LogRecord.Fits]
  rw [encode_fits fits,mapError_ok] at spelled
  cases spelled
  obtain ⟨_,stampedDisk,stamps,done⟩ := bind_ok.mp done
  have stamped := stamp_ok (write_same _ _ _) stamps
  rw [write_write] at stamped
  obtain ⟨verification,verifiedDisk,verified,done⟩ := bind_ok.mp done
  obtain ⟨sameDisk,found,recovery,there,has,recovers,-,-,-⟩ := verify_ok (rethrow_ok.mp verified)
  split at done
  · cases done
  · rename_i checked
    cases done
    rw [stamped,write_same] at there
    cases there
    have size := header_length self.header
    obtain ⟨read,ends⟩ := stamped_records size rewritten.whole fits
    obtain ⟨_,_,log⟩ := rewritten.sound.log
    obtain ⟨acc,replayed,-,reported⟩ := recover_ok_iff.mp recovers
    rw [read] at replayed
    have unstaged : stagedBy markerTx (records file) = [] := by
      have known := (replay_ok replayed)
      refine stagedBy_other ?_
      intro r inLog same
      have low : r.tx_id ≤ maxTxId (records file) := (foldl_max_ge 0 _).2 r.tx_id (List.mem_map_of_mem inLog)
      have highest : maxTxId (records file) ≤ max (maxTxId (records self.file)) (maxTxId (records file)) := by
        rw [u64_max]
        split
        · exact UInt64.le_refl _
        · rename_i more
          exact UInt64.le_of_lt (UInt64.not_le.mp more)
      have bound := UInt64.le_iff_toNat_le.mp (UInt64.le_trans low highest)
      have counted := past_ok txIs
      rw [same] at bound
      omega
    have state : recovery.state = self.state := by
      rw [reported]
      show acc.state = _
      rw [(replay_ok replayed).state,committedState_snoc_commit rfl,unstaged,← rewritten.state]
      rfl
    refine ⟨_,records file,⟨.Commit,markerTx,markerSequence,[]⟩,by rw [sameDisk,stamped],⟨verification.header,has,?_⟩,read,
      ends,⟨recovery,recovers,state⟩,rewritten.first,rewritten.written,log.increasing,log.positive,rewritten.last,⟨rfl,rfl⟩,
      past_ok txIs,past_ok sequenceIs⟩
    by_contra other
    exact checked (.inr (.inr other))

theorem compact_generation_ok {io : GenerationIo} {self : Store} {destination : Path} {disk left : Disk}
    {report : GenerationReport} (done : compact_generation_to io self destination disk = .ok report left) :
    ∃ file rs marker, left destination = some file ∧ Generated self file rs marker := by
  unfold compact_generation_to at done
  obtain ⟨_,flushed,flushes,done⟩ := bind_ok.mp done
  rw [(sync_ok.mp (rethrow_ok.mp flushes)).2] at done
  split at done
  · cases done
  dsimp only at done
  obtain ⟨_,reserved,reserves,done⟩ := bind_ok.mp done
  obtain ⟨-,there⟩ := create_new_ok reserves
  obtain ⟨image,imaged,images,done⟩ := bind_ok.mp done
  obtain ⟨unused,beside⟩ := reserve_source_image_ok (orElseDo_ok.mp images)
  have distinct : image ≠ destination := by
    rintro rfl
    rw [there,write_same] at unused
    cases unused
  obtain ⟨bytes,backed,backs,done⟩ := bind_ok.mp done
  have copied := backup_ok (rethrow_ok.mp (orElseDo_ok.mp backs))
  rw [beside,there,write_write] at copied
  obtain ⟨built,builtDisk,builds,done⟩ := bind_ok.mp done
  obtain ⟨file,rs,marker,made,generated⟩ := build_generation_ok (by rw [copied,write_same])
    (by rw [copied,write_other _ (Ne.symm distinct),write_same]) (orElseDo_ok.mp builds)
  obtain ⟨_,discarded,discards,done⟩ := bind_ok.mp done
  cases done
  refine ⟨file,rs,marker,?_,generated⟩
  rw [try_remove_other discards (Ne.symm distinct),made,write_same]

theorem Generated.state {self : Store} {file : Bytes} {rs : List LogRecord} {marker : LogRecord}
    (generated : Generated self file rs marker) : committedState (records file) = self.state := by
  obtain ⟨recovery,recovers,same⟩ := generated.recovers
  obtain ⟨acc,replayed,-,rfl⟩ := recover_ok_iff.mp recovers
  rw [← same]
  exact (replay_ok replayed).state.symm

/-- As long as the marker is not the last number of all, the file is sound. -/
theorem Generated.sound {self : Store} {file : Bytes} {rs : List LogRecord} {marker : LogRecord}
    (generated : Generated self file rs marker) (txLeft : marker.tx_id.toNat + 1 < 2 ^ 64)
    (sequenceLeft : marker.sequence.toNat + 1 < 2 ^ 64) : FileSound file := by
  obtain ⟨header,has,-⟩ := generated.header
  obtain ⟨recovery,recovers,-⟩ := generated.recovers
  obtain ⟨acc,replayed,torn,-⟩ := recover_ok_iff.mp recovers
  obtain ⟨nextTx,-,txIs⟩ := u64_checked_add_one txLeft
  obtain ⟨nextSequence,-,sequenceIs⟩ := u64_checked_add_one sequenceLeft
  have txHigh := (le_max_numbers (maxTxId (records self.file)) (maxTxId rs)).2
  have sequenceHigh := (le_max_numbers (maxSequence (records self.file)) (maxSequence rs)).2
  have txOfMarker := generated.tx_id
  have sequenceOfMarker := generated.sequence
  refine ⟨⟨header,has⟩,torn,nextTx,nextSequence,⟨acc,replayed⟩,?_,?_,?_,?_⟩
  · rw [generated.read]
    refine List.pairwise_append.mpr ⟨generated.increasing,List.pairwise_singleton _ _,?_⟩
    intro r inLog other last
    rw [List.mem_singleton.mp last]
    have bound := sequence_le_max inLog
    exact UInt64.lt_iff_toNat_lt.mpr (by omega)
  · rw [generated.read]
    intro r member
    rcases List.mem_append.mp member with inLog | last
    · exact generated.positive r inLog
    · rw [List.mem_singleton.mp last]
      exact UInt64.lt_iff_toNat_lt.mpr (by show 0 < _; omega)
  · rw [generated.read,lastSequence_snoc]
    exact UInt64.lt_iff_toNat_lt.mpr (by omega)
  · rw [generated.read]
    intro r member
    rcases List.mem_append.mp member with inLog | last
    · have bound := tx_id_le_max inLog
      exact UInt64.lt_iff_toNat_lt.mpr (by omega)
    · rw [List.mem_singleton.mp last]
      exact UInt64.lt_iff_toNat_lt.mpr (by omega)

/-- What opening a generation finds: its identity, and counters past the marker. -/
theorem Generated.opened {self : Store} {file left : Bytes} {rs : List LogRecord} {marker : LogRecord} {io : Io} {path : Path}
    {options : StoreOptions} {store : Store} (generated : Generated self file rs marker)
    (opened : open_with_options io path options file = .ok store left) :
    store.header.store_id = self.header.store_id ∧ marker.tx_id.toNat < store.next_tx_id.toNat ∧
      marker.sequence.toNat < store.next_sequence.toNat := by
  obtain ⟨-,-,recovery,started,opens⟩ := open_ok opened
  obtain ⟨header,has,same⟩ := generated.header
  have started_file : started = file := by
    rcases opens.starts.2 with equal | ⟨rfl,-⟩
    · exact equal
    · have long := has.long
      simp [STORE_HEADER_LEN] at long
  subst started_file
  have decoded := opens.starts.1.decodes
  rw [has.decodes] at decoded
  obtain ⟨acc,replayed,-,reported⟩ := recover_ok_iff.mp opens.recovers
  have known := replay_ok replayed
  have txCounter := next_counter_ok opens.next_tx_id
  have sequenceCounter := next_counter_ok opens.next_sequence
  rw [reported] at txCounter sequenceCounter
  change store.next_tx_id.toNat = acc.max_tx_id.toNat + 1 at txCounter
  change store.next_sequence.toNat = acc.max_sequence.toNat + 1 at sequenceCounter
  rw [known.sequence,generated.read,lastSequence_snoc] at sequenceCounter
  have inLog : marker ∈ records started := by rw [generated.read]; simp
  have bound : marker.tx_id.toNat ≤ acc.max_tx_id.toNat := by
    rw [known.txId]
    exact tx_id_le_max inLog
  refine ⟨?_,by omega,by omega⟩
  rw [← Except.ok.inj decoded]
  exact same

/-- The highest number that the changes of a store may have if they are to stay
    behind those of its generation. -/
def changesBound (self : Store) : Nat := (max (maxTxId (records self.file)) 1).toNat + 1

theorem Generated.logged {self : Store} {file : Bytes} {rs : List LogRecord} {marker : LogRecord}
    (generated : Generated self file rs marker) {feed : List ChangeRecord} (fed : Fed self.state feed) :
    Logged file (feed.map (fun c => c.tx_id)) ↔ ∀ c ∈ feed, c.tx_id.toNat ≤ changesBound self := by
  have markerIs : ∀ c ∈ feed, marker.tx_id.toNat = changesBound self := by
    intro c member
    have some_state : self.state ≠ ∅ := by
      intro none
      have found := (fed.stored c.entry.1 c.entry.2 (change_key_starts _ _)).mpr ⟨c,member,rfl⟩
      rw [none] at found
      simp at found
    rw [generated.tx_id,first_max generated.first (generated.written.mp some_state)]
    rfl
  constructor
  · intro logged c member
    obtain ⟨r,inLog,low⟩ := logged c.tx_id (List.mem_map.mpr ⟨c,member,rfl⟩)
    have below := UInt64.le_iff_toNat_le.mp low
    have marked := markerIs c member
    rw [generated.read] at inLog
    rcases List.mem_append.mp inLog with rewritten | last
    · have bound := tx_id_le_max rewritten
      have highest := (le_max_numbers (maxTxId (records self.file)) (maxTxId rs)).2
      have counted := generated.tx_id
      omega
    · rw [List.mem_singleton.mp last] at below
      omega
  · intro bounded id told
    obtain ⟨c,member,rfl⟩ := List.mem_map.mp told
    refine ⟨marker,by rw [generated.read]; simp,?_⟩
    have marked := markerIs c member
    have below := bounded c member
    exact UInt64.le_iff_toNat_le.mpr (by omega)

/-- The counters of the store have room for its generation to commit once more. -/
structure CountersLeft (source : Store) : Prop where
  tx_id : (maxTxId (records source.file)).toNat + 3 < 2 ^ 64
  sequence : (maxSequence (records source.file)).toNat + 5 < 2 ^ 64
  entries : source.state.size < 2 ^ 63

theorem Generated.room {self : Store} {file : Bytes} {rs : List LogRecord} {marker : LogRecord}
    (generated : Generated self file rs marker) (left : CountersLeft self) : HasRoom file := by
  have txOfMarker := generated.tx_id
  have sequenceOfMarker := generated.sequence
  have rewrittenTx : (maxTxId rs).toNat ≤ 1 := by
    by_cases none : rs = []
    · rw [none]
      exact Nat.zero_le _
    · rw [first_max generated.first none]
      exact Nat.le_refl _
  have rewrittenSequence : (maxSequence rs).toNat ≤ (lastSequence rs).toNat := by
    refine UInt64.le_iff_toNat_le.mp ?_
    by_contra above
    have less := UInt64.not_le.mp above
    have bounded : maxSequence rs < maxSequence rs := by
      refine foldl_max_lt (UInt64.lt_of_le_of_lt UInt64.zero_le less) ?_
      intro t member
      obtain ⟨r,inLog,rfl⟩ := List.mem_map.mp member
      exact UInt64.lt_of_le_of_lt (increasing_le_last generated.increasing inLog) less
    exact UInt64.lt_irrefl _ bounded
  have last := generated.last
  have entries := left.entries
  have txRoom := @max_numbers_lt (maxTxId (records self.file)) (maxTxId rs) (2 ^ 64 - 3)
    (by have room := left.tx_id; omega) (by omega)
  have sequenceRoom := @max_numbers_lt (maxSequence (records self.file)) (maxSequence rs) (2 ^ 64 - 5)
    (by have room := left.sequence; omega) (by omega)
  have highest := (le_max_numbers (maxTxId (records self.file)) (maxTxId rs)).2
  refine ⟨?_,?_⟩
  · intro r member
    rw [generated.read] at member
    rcases List.mem_append.mp member with rewritten | marked
    · have bound := tx_id_le_max rewritten
      omega
    · rw [List.mem_singleton.mp marked]
      omega
  · rw [generated.read,lastSequence_snoc]
    omega

/-- A file that recovers to the given map. -/
def RecoversTo (file : Bytes) (state : State) : Prop := ∃ recovery, recover file = .ok recovery ∧ recovery.state = state

theorem Rewritten.recovers {held : State} {file : Bytes} (rewritten : Rewritten held file) : RecoversTo file held := by
  obtain ⟨_,_,log⟩ := rewritten.sound.log
  obtain ⟨acc,replayed⟩ := log.replays
  refine ⟨_,recover_ok_iff.mpr ⟨acc,replayed,rewritten.sound.torn,rfl⟩,?_⟩
  rw [← rewritten.state]
  exact (replay_ok replayed).state

/-- What a generation keeps of its source: the map, the identity, and counters
    ahead of every number in its log. -/
structure Preserves (source : Store) (file : Bytes) : Prop where
  state : RecoversTo file source.state
  identity : ∃ header, HasHeader file header ∧ header.store_id = source.header.store_id
  ahead : ∀ io path options store left, open_with_options io path options file = .ok store left →
    store.header.store_id = source.header.store_id ∧
      ∀ r ∈ records source.file, r.tx_id < store.next_tx_id ∧ r.sequence < store.next_sequence

theorem Generated.preserves {self : Store} {file : Bytes} {rs : List LogRecord} {marker : LogRecord}
    (generated : Generated self file rs marker) : Preserves self file := by
  refine ⟨generated.recovers,generated.header,?_⟩
  intro io path options store left opened
  obtain ⟨identity,txAhead,sequenceAhead⟩ := generated.opened opened
  refine ⟨identity,?_⟩
  intro r inLog
  have txBound := tx_id_le_max inLog
  have sequenceBound := sequence_le_max inLog
  have txHigh := (le_max_numbers (maxTxId (records self.file)) (maxTxId rs)).1
  have sequenceHigh := (le_max_numbers (maxSequence (records self.file)) (maxSequence rs)).1
  have txOfMarker := generated.tx_id
  have sequenceOfMarker := generated.sequence
  exact ⟨UInt64.lt_iff_toNat_lt.mpr (by omega),UInt64.lt_iff_toNat_lt.mpr (by omega)⟩

theorem Generated.appends {self : Store} {file : Bytes} {rs : List LogRecord} {marker : LogRecord} (path : Path)
    (generated : Generated self file rs marker) {feed : List ChangeRecord} (fed : Fed self.state feed)
    (bounded : ∀ c ∈ feed, c.tx_id.toNat ≤ changesBound self) : AppendsOnly path file feed := by
  intro io options store left opened
  obtain ⟨-,txAhead,sequenceAhead⟩ := generated.opened opened
  have txLimit := store.next_tx_id.toNat_lt
  have sequenceLimit := store.next_sequence.toNat_lt
  have sound := generated.sound (by omega) (by omega)
  have fedThere : Fed (committedState (records file)) feed := by
    rw [generated.state]
    exact fed
  have known : ∀ c ∈ feed, c.tx_id ∈ feed.map (fun c => c.tx_id) := fun c member => List.mem_map.mpr ⟨c,member,rfl⟩
  have goes := logged_goes_on path sound generated.whole fedThere known ((generated.logged fed).mpr bounded)
  exact goes.appends io options store left opened

/-- Every rewrite recovers to the map of its source. A generation keeps the
    identity and is ahead of the source's log; later changes come after all the
    preserved ones if and only if no preserved change has a number more than one
    above those in the source's log. -/
theorem rewrites_preserve (self : Store) (destination : Path) (disk left : Disk) :
    (Copied self destination disk left → ∃ file, left destination = some file ∧ RecoversTo file self.state) ∧
    ∀ io report, compact_generation_to io self destination disk = .ok report left →
      ∃ file, left destination = some file ∧ Preserves self file ∧ ∀ feed, Fed self.state feed →
        ((∀ c ∈ feed, c.tx_id.toNat ≤ changesBound self) → AppendsOnly destination file feed) ∧
        (CountersLeft self → AppendsOnly destination file feed → ∀ c ∈ feed, c.tx_id.toNat ≤ changesBound self) := by
  constructor
  · intro copied
    obtain ⟨file,rfl,rewritten⟩ := copied_rewritten copied
    exact ⟨file,write_same _ _ _,rewritten.recovers⟩
  · intro io report done
    obtain ⟨file,rs,marker,there,generated⟩ := compact_generation_ok done
    refine ⟨file,there,generated.preserves,?_⟩
    intro feed fed
    refine ⟨generated.appends destination fed,?_⟩
    intro counters appends
    have room := generated.room counters
    have fedThere : Fed (committedState (records file)) feed := by
      rw [generated.state]
      exact fed
    have inLog : marker ∈ records file := by rw [generated.read]; simp
    have txRoom := room.tx_id marker inLog
    have sequenceRoom := room.sequence
    rw [generated.read,lastSequence_snoc] at sequenceRoom
    have sound := generated.sound (by omega) (by omega)
    rw [appends_only_iff sound generated.whole room fedThere] at appends
    exact (generated.logged fed).mp appends

end

/-- Nothing fails while a generation is built. -/
def calmGeneration : GenerationIo where
  flush := calm
  create := fun _ => none
  nonce := fun _ => .ok 0
  backup := fun _ => none
  copied := 0
  read_log := fun _ => none
  build := calm
  stamp := fun _ => none
  written := fun _ => 0
  verify := calm
  remove_file := fun _ => none

set_option maxRecDepth 20000 in
/-- Three deletes, a copy, a generation of the copy, and a delete on it: its
    change takes the place of the third one. -/
theorem generation_of_copy_overwrites_change : (do
    let (store,_) ← outcome (@open_with_options crates calm ["a.vstore"] .default) []
    let source := @usedStore crates store (deleteActions [107] ++ deleteActions [108] ++ deleteActions [109])
    let (_,copied) ← outcome (@compact_copy_to crates calmCopy source ["b.vstore"]) (diskOf source)
    let (copy,opened) ← outcome (@open_store crates calm ["b.vstore"]) copied
    let (_,made) ← outcome (@compact_generation_to crates calmGeneration copy ["c.vstore"]) opened
    let (generation,_) ← outcome (@open_store crates calm ["c.vstore"]) made
    return ((copy.changes_after none 100).toOption,
      ((@usedStore crates generation (deleteActions [110])).changes_after none 100).toOption)) =
    some (some [⟨1,0,.Delete,[107],none,none⟩,⟨2,0,.Delete,[108],none,none⟩,⟨3,0,.Delete,[109],none,none⟩],
      some [⟨1,0,.Delete,[107],none,none⟩,⟨2,0,.Delete,[108],none,none⟩,⟨3,0,.Delete,[110],none,none⟩]) := by
  decide +kernel

set_option maxRecDepth 20000 in
/-- A store that is no copy: its feed goes on in its generation. -/
theorem one_delete_generation : ∃ source file, @Preserves crates source file ∧
    @AppendsOnly crates ["b.vstore"] file [⟨1,0,.Delete,[107],none,none⟩] := by
  let _ := crates
  have evaluated : passes (@open_with_options crates calm ["a.vstore"] .default []) (fun store _ =>
        let site := @Site.steps crates ⟨⟨.Idle store,[]⟩,[]⟩ (deleteActions [107])
        passes (@compact_generation_to crates calmGeneration site.session.store ["b.vstore"] (diskOf site.session.store)) (fun _ _ =>
          decide (@Site.feed crates site = [⟨1,0,.Delete,[107],none,none⟩]))) = true := by
    rw [crates_eq_quick]
    decide +kernel
  obtain ⟨store,left,opened,evaluated⟩ := passes_iff.mp evaluated
  obtain ⟨report,made,done,evaluated⟩ := passes_iff.mp evaluated
  have feed := of_decide_eq_true evaluated
  obtain ⟨new,kept⟩ := new_store_exact opened
  have fed := (steps_exact new kept (delete_use [107])).1.fed
  rw [feed] at fed
  obtain ⟨file,-,preserves,continues⟩ := (rewrites_preserve _ _ _ _).2 calmGeneration report done
  refine ⟨_,file,preserves,(continues _ fed).1 ?_⟩
  intro c member
  rw [List.mem_singleton.mp member]
  exact Nat.le_add_left 1 _

end VoodooStore
