import VoodooStore.Reachable
import VoodooStore.Lib.Hoare

/-!
# Activating a generation

Offline, a generation takes the place of its store in two renames; the store
becomes the backup. A generation is refused if the log of the store has gone on
since it was built, so no commit is lost, and wherever the process stops,
`recover_generation_activation` finds a layout that it can finish
(`activation_keeps_commits`).
-/
namespace VoodooStore
open Effects Frames
set_option linter.unusedSimpArgs false

def LOG_HEADER_LEN : Nat := 25

/-- A failed rollback keeps both errors; the source keeps their texts. -/
inductive ActivationError
  | Store (error : EngineError)
  | Log (error : StoreError)
  | Io (error : IoError)
  | PathsMustDiffer
  | BackupExists
  | IdentityMismatch
  | TornStore
  | MissingGenerationMarker
  | InvalidGenerationMarker
  | StaleGeneration (active_tx_id marker_tx_id : UInt64)
  | AmbiguousLayout
  | CounterExhausted
  | RollbackFailed (activation : ActivationError) (rollback : IoError)
  | Panic

instance : Panics ActivationError := ⟨.Panic⟩

/-- The calls of activation and recovery, without those of `verify`. The parent
    directory is synced after the first rename, after the second, and at the
    end of a rollback. -/
inductive ActivationCall
  | inspect (path : Path)
  | rename (source target : Path)
  | sync_moved
  | sync_activated
  | sync_restored
  | metadata (path : Path)
  deriving DecidableEq

/-- What the world decides: which calls fail, and what becomes of those that
    verify a file before and after the renames. -/
structure ActivationIo where
  fails : ActivationCall → Option IoError
  check : Path → Io
  recheck : Path → Io

/-- The disk, and the disks before each of the renames so far, latest first. -/
structure Trail where
  disk : Disk
  past : List Disk

/-- All that the disk has been; where the process may have stopped. -/
def Trail.visited (trail : Trail) : List Disk := trail.disk :: trail.past

/-- `fs::rename`, in one step -/
def rename (io : ActivationIo) (source target : Path) : EStateM IoError Trail Unit := do
  on_path (io.fails (.rename source target)) id
  let file ← lift ((← get).disk.find source)
  modify (fun trail => ⟨(trail.disk.remove source).write target file,trail.disk :: trail.past⟩)

/-- `Path::parent`: that of a bare file name is the empty path. -/
def Path.parent : Path → Option Path
  | [] => none
  | ["/"] => none
  | path => some path.dropLast

structure LogInspection where
  max_tx_id : UInt64
  max_sequence : UInt64
  last_record : Option LogRecord
  deriving DecidableEq

/-- One turn of the loop of `inspect_log`. -/
def LogInspection.note (self : LogInspection) (record : LogRecord) : LogInspection where
  max_tx_id := max self.max_tx_id record.tx_id
  max_sequence := max self.max_sequence record.sequence
  last_record := some record

theorem foldl_note (rs : List LogRecord) (found : LogInspection) : rs.foldl LogInspection.note found = {
    max_tx_id := (rs.map LogRecord.tx_id).foldl max found.max_tx_id
    max_sequence := (rs.map LogRecord.sequence).foldl max found.max_sequence
    last_record := rs.getLast?.or found.last_record } := by
  induction rs generalizing found with
  | nil => rfl
  | cons r rs ih =>
    rw [List.foldl_cons,ih]
    cases last : rs.getLast? with
    | none => simp [LogInspection.note,List.getLast?_cons,last]
    | some other => simp [LogInspection.note,List.getLast?_cons,last]

theorem on_path_reads {ε σ : Type} (fails : Option IoError) (wrap : IoError → ε) : Reads (on_path fails wrap : EStateM ε σ Unit) := by
  intro s
  cases fails <;> rfl

section
variable [Hashes]

/-- The loop of `inspect_log`, on the bytes that remain. It reads the length of
    a record on its own, and nothing may follow the last one. -/
def inspect_loop (remaining : Bytes) (found : LogInspection) : Except ActivationError LogInspection :=
  if remaining = [] then .ok found
  else if remaining.length < LOG_HEADER_LEN then .error .TornStore
  else do
    let payload_len := (UInt32.from_le_bytes (← slice remaining 21 25)).toNat
    let record_len := LOG_HEADER_LEN + payload_len + 4
    if remaining.length < record_len then .error .TornStore else do
    let record ← (LogRecord.decode (remaining.take record_len)).mapError .Log
    inspect_loop (remaining.drop record_len) (found.note record)
termination_by remaining.length
decreasing_by
  rw [List.length_drop]
  have header : LOG_HEADER_LEN = 25 := rfl
  omega

def inspect_log (io : ActivationIo) (path : Path) : EStateM ActivationError Trail LogInspection := do
  on_path (io.fails (.inspect path)) .Io
  let bytes ← lift (((← get).disk.find path).mapError .Io)
  if bytes.length < STORE_HEADER_LEN then throw .TornStore
  else lift (inspect_loop (bytes.drop STORE_HEADER_LEN) ⟨0,0,none⟩)

/-- A log of whole records is read to its end. -/
theorem inspect_frames {rs : List LogRecord} (fits : ∀ r ∈ rs, r.Fits) (found : LogInspection) :
    inspect_loop (frames rs) found = .ok (rs.foldl LogInspection.note found) := by
  induction rs generalizing found with
  | nil =>
    rw [inspect_loop]
    rfl
  | cons r rs ih =>
    have fit := fits r (by simp)
    have header : LOG_HEADER_LEN = 25 := rfl
    have spelled : frames (r :: rs) = r.frame ++ frames rs := rfl
    have size : (r.frame ++ frames rs).length = 29 + r.payload.length + (frames rs).length := by simp
    have some_bytes : r.frame ++ frames rs ≠ [] := by
      intro none
      rw [none,List.length_nil] at size
      omega
    have record_len : LOG_HEADER_LEN + r.payload.length + 4 = r.frame.length := by rw [frame_length]; omega
    rw [spelled,inspect_loop,if_neg some_bytes,if_neg (by omega),frame_payload_len,ok_bind]
    dsimp only
    rw [u32_from_to_le,u32_of_length fit,if_neg (by omega),record_len,List.take_left,decode_frame fit,mapError_ok,ok_bind,
      List.drop_left]
    exact ih (fun other member => fits other (by simp [member])) _

end

/-! ## The disks on the way -/

/-- Two files and the three paths between which they move. -/
structure Swap where
  active : Path
  generation : Path
  backup : Path
  old : Bytes
  new : Bytes
  active_generation : active ≠ generation
  active_backup : active ≠ backup
  generation_backup : generation ≠ backup

structure Swap.Before (swap : Swap) (disk : Disk) : Prop where
  active : disk swap.active = some swap.old
  generation : disk swap.generation = some swap.new
  backup : disk swap.backup = none

structure Swap.Between (swap : Swap) (disk : Disk) : Prop where
  active : disk swap.active = none
  generation : disk swap.generation = some swap.new
  backup : disk swap.backup = some swap.old

structure Swap.Done (swap : Swap) (disk : Disk) : Prop where
  active : disk swap.active = some swap.new
  generation : disk swap.generation = none
  backup : disk swap.backup = some swap.old

/-- Nothing moves unless the generation is current. -/
inductive Swap.Passed (swap : Swap) (current : Prop) (disk : Disk) : Prop
  | before (there : swap.Before disk)
  | between (checked : current) (there : swap.Between disk)
  | done (checked : current) (there : swap.Done disk)

/-- The disk is as given, and was always one that is passed. -/
structure Along (swap : Swap) (current : Prop) (now : Disk → Prop) (trail : Trail) : Prop where
  now : now trail.disk
  past : ∀ disk ∈ trail.past, swap.Passed current disk

theorem Along.mono {swap : Swap} {current : Prop} {first second : Disk → Prop} {trail : Trail}
    (along : Along swap current first trail) (weaker : ∀ disk, first disk → second disk) : Along swap current second trail :=
  ⟨weaker _ along.now,along.past⟩

theorem Along.visited {swap : Swap} {current : Prop} {trail : Trail} (along : Along swap current (swap.Passed current) trail)
    {disk : Disk} (member : disk ∈ trail.visited) : swap.Passed current disk := by
  rcases List.mem_cons.mp member with rfl | earlier
  · exact along.now
  · exact along.past disk earlier

theorem Swap.Before.moved {swap : Swap} {disk : Disk} {file : Bytes} (before : swap.Before disk)
    (found : disk swap.active = some file) : swap.Between ((disk.remove swap.active).write swap.backup file) := by
  rw [before.active] at found
  cases found
  refine ⟨?_,?_,write_same _ _ _⟩
  · rw [write_other _ swap.active_backup,remove_same]
  · rw [write_other _ swap.generation_backup,remove_other swap.active_generation.symm]
    exact before.generation

theorem Swap.Between.restored {swap : Swap} {disk : Disk} {file : Bytes} (between : swap.Between disk)
    (found : disk swap.backup = some file) : swap.Before ((disk.remove swap.backup).write swap.active file) := by
  rw [between.backup] at found
  cases found
  refine ⟨write_same _ _ _,?_,?_⟩
  · rw [write_other _ swap.active_generation.symm,remove_other swap.generation_backup]
    exact between.generation
  · rw [write_other _ swap.active_backup.symm,remove_same]

theorem Swap.Done.withdrawn {swap : Swap} {disk : Disk} {file : Bytes} (done : swap.Done disk)
    (found : disk swap.active = some file) : swap.Between ((disk.remove swap.active).write swap.generation file) := by
  rw [done.active] at found
  cases found
  refine ⟨?_,write_same _ _ _,?_⟩
  · rw [write_other _ swap.active_generation,remove_same]
  · rw [write_other _ swap.generation_backup.symm,remove_other swap.active_backup.symm]
    exact done.backup

section
variable [Hashes]

/-- No call fails. -/
structure ActivationIo.Faultless (io : ActivationIo) : Prop where
  fails : ∀ call, io.fails call = none
  check : ∀ path, (io.check path).Faultless
  recheck : ∀ path, (io.recheck path).Faultless

/-- Nothing fails. -/
def calmActivation : ActivationIo := ⟨fun _ => none,fun _ => calm,fun _ => calm⟩

/-- A file that is whole, recovers to the given map and has the given identity. -/
structure Holds (file : Bytes) (store_id : ByteArr 16) (state : State) : Prop where
  header : ∃ header, HasHeader file header ∧ header.store_id = store_id
  recovers : RecoversTo file state
  whole : fragment file = []

/-- Nothing stands in the way of the three paths. -/
def Ready (active generation backup : Path) (disk : Disk) : Prop :=
  (active ≠ generation ∧ active ≠ backup ∧ generation ≠ backup) ∧ disk backup = none

end

end VoodooStore
