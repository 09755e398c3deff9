import VoodooStore.Activation
import VoodooStore.Lib.Cleanup

/-!
# Checkpoints and restores

A checkpoint copies the file of an open store, with its identity and its log; a
restore copies a file that was verified. Both make their destination and never
write over a file that is there. A copy that fails leaves nothing behind
(`checkpoint_is_all_or_nothing`, `restore_is_all_or_nothing`), and one that was
made opens as its store would (`restored_checkpoint_reopens_store`).
-/
namespace VoodooStore
open Effects Frames
set_option linter.unusedSimpArgs false

structure CheckpointReport where
  source_store_id : ByteArr 16
  checkpoint_store_id : ByteArr 16
  file_bytes : Nat
  valid_bytes : Nat
  keys : Nat
  committed_transactions : Nat
  pending_transactions : Nat
  deriving DecidableEq

structure RestoreReport where
  bytes : Nat
  keys : Nat
  store_id : ByteArr 16
  deriving DecidableEq

inductive CheckpointError
  | Store (error : EngineError)
  | Io (error : IoError)
  | DestinationExists
  | DestinationIsSource
  | IdentityMismatch
  | VerificationMismatch
  | Randomness (message : String)
  | TemporaryNameExhausted
  deriving DecidableEq

/-- The calls that copy a file into a new one, in order. -/
inductive FileCopyCall
  | open_source
  | open_target
  | copy
  | sync_target
  deriving DecidableEq

/-- Which of them fail, and how much a copy that fails has written. -/
structure FileCopyIo where
  fails : FileCopyCall → Option IoError
  copied : Nat

/-- What the world decides while a checkpoint is made; its image of the source
    is made as that of a generation. -/
structure CheckpointIo extends GenerationIo where
  canonicalize : Path → Option IoError
  copy : FileCopyIo

structure RestoreIo where
  check : Io
  copy : FileCopyIo
  verify : Io
  remove_file : Option IoError

/-- What both functions do between their checks: the destination is made, and
    removed again if it does not get all of the source. -/
def copy_file {ε : Type} (io : FileCopyIo) (remove_file : Option IoError) (exists_error : ε) (wrap : IoError → ε)
    (source destination : Path) : EStateM ε Disk Nat := do
  on_path (io.fails .open_source) wrap
  let file ← lift (((← get).find source).mapError wrap)
  create_new (io.fails .open_target) exists_error wrap destination
  orElseDo (match io.fails .copy with
    | some error => do
      modify (Disk.write · destination (file.take io.copied))
      throw (wrap error)
    | none => do
      modify (Disk.write · destination file)
      on_path (io.fails .sync_target) wrap
      return file.length)
    (try_remove_file remove_file destination)

/-- A name beside the destination for a copy of the source. -/
def temporary_candidate (destination : Path) (suffix : UInt64) : Path :=
  let base := match destination.getLast? with
    | none => "checkpoint"
    | some name => if name = ".." then "checkpoint" else name
  destination.dropLast ++ ["." ++ base ++ ".checkpoint-" ++ hex16 suffix ++ ".tmp"]

/-- The loop of `reserve_temporary_sibling`, with the attempts that are left. -/
def reserve_temporary_sibling (io : CheckpointIo) (destination : Path) : Nat → EStateM CheckpointError Disk Path
  | 0 => throw .TemporaryNameExhausted
  | attempts + 1 => do
    let suffix ← lift ((io.nonce attempts).mapError .Randomness)
    let candidate := temporary_candidate destination suffix
    if ((← get) candidate).isSome then reserve_temporary_sibling io destination attempts
    else
      on_path (io.create candidate) .Io
      modify (Disk.write · candidate [])
      return candidate

def ensure_distinct_destination (io : CheckpointIo) (source destination : Path) : EStateM CheckpointError Disk Unit := do
  if source = destination then throw .DestinationIsSource
  else if ((← get) destination).isSome then
    on_path (io.canonicalize source) .Io
    on_path (io.canonicalize destination) .Io
    throw .DestinationExists
  else pure ()

section
variable [Hashes]

def checkpoint_from_temporary (io : CheckpointIo) (self : Store) (temporary destination : Path) :
    EStateM CheckpointError Disk CheckpointReport := do
  let _ ← rethrow .Store (backup_to io.toGenerationIo self temporary)
  let copied_bytes ← copy_file io.copy (io.remove_file destination) .DestinationExists .Io temporary destination
  orElseDo (do
      let report ← rethrow .Store (verify io.verify destination)
      if report.header.store_id ≠ self.header.store_id then throw .IdentityMismatch
      else if report.file_bytes ≠ copied_bytes ∨ report.has_torn_tail then throw .VerificationMismatch
      else return {
        source_store_id := self.header.store_id
        checkpoint_store_id := report.header.store_id
        file_bytes := report.file_bytes
        valid_bytes := report.valid_bytes
        keys := report.keys
        committed_transactions := report.committed_transactions
        pending_transactions := report.pending_transactions })
    (try_remove_file (io.remove_file destination) destination)

def checkpoint_to (io : CheckpointIo) (self : Store) (destination : Path) : EStateM CheckpointError Disk CheckpointReport := do
  rethrow .Store (sync_file io.flush .flush self.options.durability)
  ensure_distinct_destination io self.path destination
  let temporary ← reserve_temporary_sibling io destination 16
  let discard : EStateM CheckpointError Disk Unit := try_remove_file (io.remove_file temporary) temporary
  let report ← orElseDo (checkpoint_from_temporary io self temporary destination) discard
  discard
  return report

def restore_verified (io : RestoreIo) (source destination : Path) (source_report : VerificationReport) :
    EStateM EngineError Disk RestoreReport := do
  let bytes ← copy_file io.copy io.remove_file (.Io ⟨.AlreadyExists,"entity already exists"⟩) .Io source destination
  orElseDo (do
      let restored ← verify io.verify destination
      if restored.has_torn_tail ∨ restored.file_bytes ≠ source_report.file_bytes ∨
          restored.valid_bytes ≠ source_report.valid_bytes ∨ restored.keys ≠ source_report.keys ∨
          restored.header ≠ source_report.header then
        throw (.Io ⟨.InvalidData,"restored store does not match verified source"⟩)
      else return ⟨bytes,restored.keys,restored.header.store_id⟩)
    (try_remove_file io.remove_file destination)

def restore_copy (io : RestoreIo) (source destination : Path) : EStateM EngineError Disk RestoreReport := do
  if source = destination then throw (.Io ⟨.InvalidInput,"restore destination must differ from source store"⟩)
  else
    let source_report ← verify io.check source
    if source_report.has_torn_tail then throw (.Io ⟨.InvalidData,"restore source has a torn tail"⟩)
    else restore_verified io source destination source_report

end

/-! ## What becomes of the disk -/

/-- An attempt that came to nothing: the files are as they were, and if what was
    made could be removed so is the disk. -/
structure Undone (removes : Prop) (disk left : Disk) : Prop where
  kept : ∀ path file, disk path = some file → left path = some file
  clean : removes → left = disk

/-- The disk got one file more. -/
structure Added (removes : Prop) (disk : Disk) (path : Path) (file : Bytes) (left : Disk) : Prop where
  free : disk path = none
  made : left path = some file
  kept : ∀ other held, disk other = some held → left other = some held
  clean : removes → left = disk.write path file

theorem Undone.refl (removes : Prop) (disk : Disk) : Undone removes disk disk := ⟨fun _ _ held => held,fun _ => rfl⟩

/-- A file that was made is removed again, or stays if that fails. -/
theorem removed_undone {ε : Type} {remove_file : Option IoError} {disk : Disk} {path : Path} (free : disk path = none)
    (rest : Bytes) :
    Undone (remove_file = none) disk (after (try_remove_file remove_file path : EStateM ε Disk Unit) (disk.write path rest)) := by
  have other : ∀ p file, disk p = some file → p ≠ path := by
    rintro p file held rfl
    rw [free] at held
    cases held
  cases remove_file with
  | some error =>
    refine ⟨?_,fun can => absurd can (Option.some_ne_none error)⟩
    intro p file held
    exact (write_other rest (other p file held)).trans held
  | none =>
    have removed : (disk.write path rest).remove path = disk := by
      funext p
      by_cases same : p = path
      · rw [same,remove_same,free]
      · rw [remove_other same,write_other rest same]
    show Undone _ disk ((disk.write path rest).remove path)
    rw [removed]
    exact .refl _ _

theorem create_new_meets {ε : Type} (fails : Option IoError) (exists_error : ε) (wrap : IoError → ε) (path : Path) (disk : Disk) :
    Meets (· = disk) (create_new fails exists_error wrap path) (fun _ left => disk path = none ∧ left = disk.write path [])
      (· = disk) := by
  refine meets_of_results ?_ ?_
  · rintro s left u rfl done
    exact create_new_ok done
  · rintro s left e rfl failed
    unfold create_new at failed
    rw [get_bind] at failed
    split at failed
    · cases failed
      rfl
    · cases fails with
      | some error =>
        cases failed
        rfl
      | none => cases failed

/-- A copy gets all of its source, or is undone. -/
theorem copy_file_meets {ε : Type} (io : FileCopyIo) (remove_file : Option IoError) (exists_error : ε) (wrap : IoError → ε)
    (source destination : Path) (disk : Disk) :
    Meets (· = disk) (copy_file io remove_file exists_error wrap source destination)
      (fun bytes left => ∃ file, disk source = some file ∧ disk destination = none ∧ bytes = file.length ∧
        left = disk.write destination file)
      (Undone (remove_file = none) disk) := by
  have unmade : ∀ s, s = disk → Undone (remove_file = none) disk s := by
    rintro s rfl
    exact .refl _ _
  unfold copy_file
  refine (((on_path_reads _ _).meets _).imp (fun _ _ same => same) unmade).bind (fun _ => ?_)
  refine meets_get (fun s => ?_)
  refine ((meets_lift.imp (fun _ _ same => same) (fun t same => unmade t same.2)).bind (fun file => ?_))
  rintro t ⟨found,rfl,here⟩
  have read := find_ok.mp (mapError_eq_ok.mp found)
  rw [here] at read ⊢
  refine ((create_new_meets _ exists_error wrap destination disk).imp (fun _ _ made => made) unmade).bind (fun _ => ?_) disk rfl
  have copies : Meets (fun left => disk destination = none ∧ left = disk.write destination [])
      (match io.fails .copy with
        | some error => do
          modify (Disk.write · destination (file.take io.copied))
          throw (wrap error)
        | none => do
          modify (Disk.write · destination file)
          on_path (io.fails .sync_target) wrap
          return file.length)
      (fun bytes left => ∃ file, disk source = some file ∧ disk destination = none ∧ bytes = file.length ∧
        left = disk.write destination file)
      (fun left => disk destination = none ∧ ∃ rest, left = disk.write destination rest) := by
    rintro s ⟨free,rfl⟩
    cases copies : io.fails .copy with
    | some error => exact ⟨free,_,write_write _ _ _ _⟩
    | none =>
      dsimp only
      rw [modify_bind,write_write]
      cases syncs : io.fails .sync_target with
      | some error => exact ⟨free,_,rfl⟩
      | none => exact ⟨file,read,free,rfl,rfl⟩
  refine copies.orElseDo ?_
  rintro s ⟨free,rest,rfl⟩
  exact removed_undone free rest

theorem reserve_temporary_meets (io : CheckpointIo) (destination : Path) (attempts : Nat) (disk : Disk) :
    Meets (· = disk) (reserve_temporary_sibling io destination attempts)
      (fun temporary left => disk temporary = none ∧ left = disk.write temporary []) (· = disk) := by
  induction attempts with
  | zero => exact meets_throw (fun _ same => same)
  | succ attempts ih =>
    rw [reserve_temporary_sibling]
    refine (meets_lift.imp (fun _ _ read => read.2) (fun _ same => same)).bind (fun suffix => meets_get (fun s => ?_))
    refine Meets.ite (fun _ => ih.weaken (fun _ same => same.2) (fun _ same => same)) (fun free => ?_)
    rintro t ⟨rfl,same⟩
    rw [same] at free ⊢
    cases creates : io.create (temporary_candidate destination suffix) with
    | some error => exact rfl
    | none => exact ⟨by simpa using free,rfl⟩

theorem backup_meets (io : GenerationIo) (self : Store) (destination : Path) (disk : Disk) :
    Meets (· = disk) (backup_to io self destination) (fun _ left => left = disk.write destination self.file)
      (fun left => left = disk ∨ ∃ rest, left = disk.write destination rest) := by
  have unmade : ∀ s, s = disk → s = disk ∨ ∃ rest, s = disk.write destination rest := fun _ => .inl
  have passes : ∀ call, Meets (· = disk) (on_path (io.backup call) EngineError.Io) (fun _ => (· = disk))
      (fun s => s = disk ∨ ∃ rest, s = disk.write destination rest) :=
    fun call => ((on_path_reads _ _).meets _).imp (fun _ _ same => same) unmade
  unfold backup_to
  refine (passes _).bind (fun _ => Meets.ite (fun _ => meets_throw unmade) (fun _ => ?_))
  refine meets_get (fun s => ?_)
  have looked : Meets (fun t => t = s ∧ t = disk)
      (if (s destination).isSome then on_path (io.backup .canonicalize) EngineError.Io else pure ()) (fun _ => (· = disk))
      (fun s => s = disk ∨ ∃ rest, s = disk.write destination rest) := by
    refine Meets.ite (fun _ => (passes _).weaken (fun _ same => same.2) (fun _ same => same)) (fun _ => ?_)
    exact meets_pure (fun _ same => same.2)
  refine looked.bind (fun _ => (passes _).bind (fun _ => (passes _).bind (fun _ => (passes _).bind (fun _ => ?_))))
  rintro s rfl
  cases copies : io.backup .copy with
  | some error => exact .inr ⟨_,rfl⟩
  | none =>
    dsimp only
    rw [modify_bind]
    cases syncs : io.backup .sync_target with
    | some error => exact .inr ⟨_,rfl⟩
    | none => exact rfl

theorem sync_file_reads (io : Io) (call : Call) (durability : Durability) :
    Reads (sync_file io call durability : EStateM EngineError Disk Unit) := by
  intro s
  cases durability with
  | Relaxed => rfl
  | Strict => cases fails : io.fails call <;> simp [after,sync_file,attempt,fails]
  | Data => cases fails : io.fails call <;> simp [after,sync_file,attempt,fails]

theorem ensure_distinct_meets (io : CheckpointIo) (source destination : Path) (disk : Disk) :
    Meets (· = disk) (ensure_distinct_destination io source destination) (fun _ s => source ≠ destination ∧ s = disk)
      (· = disk) := by
  have passes : ∀ path, Meets (· = disk) (on_path (io.canonicalize path) CheckpointError.Io) (fun _ => (· = disk)) (· = disk) :=
    fun path => (on_path_reads _ _).meets _
  unfold ensure_distinct_destination
  refine Meets.ite (fun _ => meets_throw (fun _ same => same)) (fun distinct => meets_get (fun s => ?_))
  refine Meets.weaken (Meets.ite (fun _ => ?_) (fun _ => meets_pure (fun _ same => ⟨distinct,same⟩)))
    (fun _ same => same.2) (fun _ same => same)
  exact (passes source).bind (fun _ => (passes destination).bind (fun _ => meets_throw (fun _ same => same)))

theorem Undone.weaken {removes stronger : Prop} {disk left : Disk} (undone : Undone removes disk left)
    (implies : stronger → removes) : Undone stronger disk left := ⟨undone.kept,fun all => undone.clean (implies all)⟩

/-- A temporary file goes, and with it what was done to it. -/
theorem Undone.discard {ε : Type} {removes : Prop} {remove_file : Option IoError} {disk left : Disk} {temporary : Path} {rest : Bytes}
    (undone : Undone removes (disk.write temporary rest) left) (free : disk temporary = none) (can : removes → remove_file = none) :
    Undone removes disk (after (try_remove_file remove_file temporary : EStateM ε Disk Unit) left) := by
  have still : ∀ p file, disk p = some file → p ≠ temporary ∧ left p = some file := by
    intro p file held
    have other : p ≠ temporary := by
      rintro rfl
      rw [free] at held
      cases held
    exact ⟨other,undone.kept p file ((write_other rest other).trans held)⟩
  cases remove_file with
  | some error => exact ⟨fun p file held => (still p file held).2,fun all => absurd (can all) (Option.some_ne_none error)⟩
  | none =>
    refine ⟨?_,?_⟩
    · intro p file held
      obtain ⟨other,there⟩ := still p file held
      exact (remove_other other).trans there
    · intro all
      have removed := @removed_undone ε none disk temporary free rest
      rw [undone.clean all]
      exact removed.clean rfl

/-- A file that was made stays when the temporary file goes. -/
theorem Added.discard {ε : Type} {removes : Prop} {remove_file : Option IoError} {disk : Disk} {temporary destination : Path}
    {rest file : Bytes} (free : disk temporary = none) (unused : (disk.write temporary rest) destination = none)
    (can : removes → remove_file = none) : Added removes disk destination file
      (after (try_remove_file remove_file temporary : EStateM ε Disk Unit) ((disk.write temporary rest).write destination file)) := by
  have apart : destination ≠ temporary := by
    rintro rfl
    rw [write_same] at unused
    cases unused
  have unmade : disk destination = none := by rwa [write_other rest apart] at unused
  have still : ∀ p, p ≠ temporary → (after (try_remove_file remove_file temporary : EStateM ε Disk Unit)
      ((disk.write temporary rest).write destination file)) p = (disk.write destination file) p := by
    intro p other
    have written : ((disk.write temporary rest).write destination file) p = (disk.write destination file) p := by
      by_cases here : p = destination
      · rw [here,write_same,write_same]
      · rw [write_other file here,write_other file here,write_other rest other]
    cases remove_file with
    | some error => exact written
    | none => exact (remove_other other).trans written
  refine ⟨unmade,?_,?_,?_⟩
  · rw [still destination apart,write_same]
  · intro other held there
    have first : other ≠ temporary := by
      rintro rfl
      rw [free] at there
      cases there
    have second : other ≠ destination := by
      rintro rfl
      rw [unmade] at there
      cases there
    rw [still other first,write_other file second,there]
  · intro all
    funext p
    by_cases here : p = temporary
    · rw [can all,here,write_other file (Ne.symm apart),free]
      exact remove_same _ _
    · exact still p here

/-! ## Checkpoints -/

/-- What the report says of the file. -/
structure CheckpointReport.Describes [Hashes] (report : CheckpointReport) (store : Store) : Prop where
  source : report.source_store_id = store.header.store_id
  identity : ∃ header, HasHeader store.file header ∧ header.store_id = store.header.store_id ∧
    report.checkpoint_store_id = header.store_id
  bytes : report.file_bytes = store.file.length
  recovers : ∃ recovery, recover store.file = .ok recovery ∧ report.valid_bytes = recovery.valid_end ∧
    report.keys = recovery.state.size
  whole : report.file_bytes ≤ report.valid_bytes

section
variable [Hashes]

theorem checkpoint_from_temporary_meets (io : CheckpointIo) (self : Store) (temporary destination : Path) (disk : Disk) :
    Meets (· = disk.write temporary []) (checkpoint_from_temporary io self temporary destination)
      (fun report left => (disk.write temporary self.file) destination = none ∧
        left = (disk.write temporary self.file).write destination self.file ∧ report.Describes self)
      (fun left => ∃ rest, Undone (io.remove_file destination = none) (disk.write temporary rest) left) := by
  unfold checkpoint_from_temporary
  have backs : Meets (· = disk.write temporary [])
      (rethrow CheckpointError.Store (backup_to io.toGenerationIo self temporary))
      (fun _ => (· = disk.write temporary self.file))
      (fun left => ∃ rest, Undone (io.remove_file destination = none) (disk.write temporary rest) left) := by
    refine (backup_meets io.toGenerationIo self temporary (disk.write temporary [])).rethrow.imp ?_ ?_
    · rintro _ s rfl
      exact write_write _ _ _ _
    · rintro s (rfl | ⟨rest,rfl⟩)
      · exact ⟨[],.refl _ _⟩
      · exact ⟨rest,by rw [write_write]; exact .refl _ _⟩
  refine backs.bind (fun _ => ?_)
  refine ((copy_file_meets io.copy (io.remove_file destination) CheckpointError.DestinationExists .Io temporary destination
    (disk.write temporary self.file)).imp (fun _ _ made => made) (fun s undone => ⟨_,undone⟩)).bind (fun copied_bytes => ?_)
  rintro s ⟨file,found,free,length,rfl⟩
  rw [write_same] at found
  cases found
  refine @Meets.orElseDo _ _ _ (· = (disk.write temporary self.file).write destination self.file) _ _ _
    (· = (disk.write temporary self.file).write destination self.file) _ ?_ ?_ _ rfl
  · refine meets_of_results ?_ ?_
    · rintro s left report rfl done
      obtain ⟨verification,checked,verified,done⟩ := bind_ok.mp done
      obtain ⟨same,file,recovery,there,header,recovers,bytes,valid,keys⟩ := verify_ok (rethrow_ok.mp verified)
      rw [write_same] at there
      cases there
      split at done
      · cases done
      rename_i identity
      split at done
      · cases done
      rename_i agrees
      cases done
      have whole : self.file.length ≤ verification.valid_bytes := by
        by_contra torn
        exact agrees (.inr (by rw [VerificationReport.has_torn_tail,bytes,decide_eq_true_eq]; omega))
      refine ⟨free,same,rfl,⟨_,header,not_not.mp identity,rfl⟩,bytes,⟨recovery,recovers,valid,keys⟩,?_⟩
      rw [bytes]
      exact whole
    · rintro s left e rfl failed
      rcases bind_error.mp failed with failed | ⟨verification,checked,verified,failed⟩
      · obtain ⟨_,failed,-⟩ := rethrow_error.mp failed
        exact verify_error failed
      · have same := (verify_ok (rethrow_ok.mp verified)).1
        split at failed
        · cases failed
          exact same
        split at failed
        · cases failed
          exact same
        · cases failed
  · rintro s rfl
    exact ⟨_,removed_undone free _⟩

/-- A checkpoint gets all of the store's file, in a place where there was none; or the disk is as it
    was. No file that was there is written or removed, whatever call fails. -/
theorem checkpoint_is_all_or_nothing (io : CheckpointIo) (self : Store) (destination : Path) (disk : Disk) :
    Meets (· = disk) (checkpoint_to io self destination)
      (fun report left => destination ≠ self.path ∧ Added (∀ path, io.remove_file path = none) disk destination self.file left ∧
        report.Describes self)
      (Undone (∀ path, io.remove_file path = none) disk) := by
  have unmade : ∀ s, s = disk → Undone (∀ path, io.remove_file path = none) disk s := by
    rintro s rfl
    exact .refl _ _
  unfold checkpoint_to
  refine (((sync_file_reads _ _ _).meets _).rethrow.imp (fun _ _ same => same) unmade).bind (fun _ => ?_)
  refine ((ensure_distinct_meets io self.path destination disk).imp (fun _ _ same => same) unmade).bind (fun _ => ?_)
  rintro s ⟨distinct,rfl⟩
  refine ((reserve_temporary_meets io destination 16 s).imp (fun _ _ made => made) unmade).bind (fun temporary => ?_) s rfl
  rintro t ⟨free,rfl⟩
  have cleans : ∀ left, (∃ rest, Undone (io.remove_file destination = none) (s.write temporary rest) left) →
      Undone (∀ path, io.remove_file path = none) s
        (after (try_remove_file (io.remove_file temporary) temporary : EStateM CheckpointError Disk Unit) left) := by
    rintro left ⟨rest,undone⟩
    exact (undone.weaken (fun all => all destination)).discard free (fun all => all temporary)
  refine ((checkpoint_from_temporary_meets io self temporary destination s).orElseDo cleans).bind (fun report => ?_) _ rfl
  · rintro left ⟨unused,rfl,describes⟩
    have added := @Added.discard CheckpointError (∀ path, io.remove_file path = none) (io.remove_file temporary) s temporary
      destination self.file self.file free unused (fun all => all temporary)
    unfold try_remove_file at added ⊢
    cases removes : io.remove_file temporary with
    | some error =>
      rw [removes] at added
      exact ⟨Ne.symm distinct,added,describes⟩
    | none =>
      rw [removes] at added
      exact ⟨Ne.symm distinct,added,describes⟩

/-! ## Restores -/

structure RestoreReport.Describes (report : RestoreReport) (file : Bytes) : Prop where
  bytes : report.bytes = file.length
  recovers : ∃ recovery, recover file = .ok recovery ∧ file.length ≤ recovery.valid_end ∧ report.keys = recovery.state.size
  identity : ∃ header, HasHeader file header ∧ report.store_id = header.store_id

/-- A restore gets all of a file that can be opened, in a place where there was none; or the disk is as it was. -/
theorem restore_is_all_or_nothing (io : RestoreIo) (source destination : Path) (disk : Disk) :
    Meets (· = disk) (restore_copy io source destination)
      (fun report left => ∃ file, disk source = some file ∧ Added True disk destination file left ∧ report.Describes file)
      (Undone (io.remove_file = none) disk) := by
  have unmade : ∀ s, s = disk → Undone (io.remove_file = none) disk s := by
    rintro s rfl
    exact .refl _ _
  unfold restore_copy
  refine Meets.ite (fun _ => meets_throw unmade) (fun distinct => ?_)
  have checks : Meets (· = disk) (verify io.check source) (fun _ => (· = disk)) (Undone (io.remove_file = none) disk) := by
    refine meets_of_results ?_ ?_
    · rintro s left report rfl done
      exact (verify_ok done).1
    · rintro s left e rfl failed
      exact unmade left (verify_error failed)
  refine checks.bind (fun source_report => Meets.ite (fun _ => meets_throw unmade) (fun _ => ?_))
  unfold restore_verified
  have copied := copy_file_meets io.copy io.remove_file (EngineError.Io ⟨.AlreadyExists,"entity already exists"⟩) EngineError.Io
    source destination disk
  refine copied.bind (fun bytes => ?_)
  rintro s ⟨file,found,free,length,rfl⟩
  refine @Meets.orElseDo _ _ _ (· = disk.write destination file) _ _ _ (· = disk.write destination file) _ ?_ ?_ _ rfl
  · refine meets_of_results ?_ ?_
    · rintro s left report rfl done
      obtain ⟨restored,checked,verified,done⟩ := bind_ok.mp done
      obtain ⟨same,held,recovery,there,header,recovers,size,valid,keys⟩ := verify_ok verified
      rw [write_same] at there
      cases there
      split at done
      · cases done
      rename_i agrees
      cases done
      have whole : file.length ≤ recovery.valid_end := by
        by_contra torn
        exact agrees (.inl (by rw [VerificationReport.has_torn_tail,size,valid,decide_eq_true_eq]; omega))
      refine ⟨file,found,⟨free,by rw [same,write_same],?_,fun _ => same⟩,⟨length,⟨recovery,recovers,whole,keys⟩,⟨_,header,rfl⟩⟩⟩
      intro other held there
      rw [same,write_other]
      · exact there
      · rintro rfl
        rw [free] at there
        cases there
    · rintro s left e rfl failed
      rcases bind_error.mp failed with failed | ⟨restored,checked,verified,failed⟩
      · exact verify_error failed
      · have same := (verify_ok verified).1
        split at failed
        · cases failed
          exact same
        · cases failed
  · rintro s rfl
    exact removed_undone free _

/-! ## There and back -/

/-- No call of the restore fails. -/
structure RestoreIo.Faultless (io : RestoreIo) : Prop where
  check : io.check.Faultless
  copy : ∀ call, io.copy.fails call = none
  verify : io.verify.Faultless

omit [Hashes] in
theorem copy_file_succeeds {ε : Type} {io : FileCopyIo} {remove_file : Option IoError} {exists_error : ε} {wrap : IoError → ε}
    {source destination : Path} {disk : Disk} {file : Bytes} (faultless : ∀ call, io.fails call = none)
    (found : disk source = some file) (free : disk destination = none) :
    copy_file io remove_file exists_error wrap source destination disk = .ok file.length (disk.write destination file) := by
  unfold copy_file
  rw [on_path_bind_ok]
  refine ⟨faultless _,?_⟩
  rw [get_bind,find_ok.mpr found,mapError_ok,bind_of_ok (lift_ok _ _)]
  have created : create_new (io.fails .open_target) exists_error wrap destination disk = .ok () (disk.write destination []) := by
    unfold create_new
    rw [get_bind,free,if_neg (by simp),on_path_bind_ok]
    exact ⟨faultless _,rfl⟩
  rw [bind_of_ok created,orElseDo_ok,faultless .copy]
  dsimp only
  rw [modify_bind,write_write,on_path_bind_ok]
  exact ⟨faultless _,rfl⟩

/-- Where nothing fails, a file that can be opened is restored. -/
theorem restore_succeeds {io : RestoreIo} {source destination : Path} {disk : Disk} {file : Bytes} {header : StoreHeader}
    {recovery : Recovery} (faultless : io.Faultless) (distinct : source ≠ destination) (found : disk source = some file)
    (free : disk destination = none) (has : HasHeader file header) (recovers : recover file = .ok recovery)
    (whole : file.length ≤ recovery.valid_end) :
    ∃ report, restore_copy io source destination disk = .ok report (disk.write destination file) := by
  obtain ⟨before,checked,headerBefore,bytesBefore,validBefore,keysBefore⟩ := verify_succeeds faultless.check found has recovers
  obtain ⟨later,verified,headerAfter,bytesAfter,validAfter,keysAfter⟩ :=
    verify_succeeds faultless.verify (write_same disk destination file) has recovers
  have untorn : ∀ report : VerificationReport, report.file_bytes = file.length → report.valid_bytes = recovery.valid_end →
      report.has_torn_tail = false := by
    intro report bytes valid
    rw [VerificationReport.has_torn_tail,bytes,valid,decide_eq_false_iff_not]
    omega
  refine ⟨⟨file.length,later.keys,later.header.store_id⟩,?_⟩
  unfold restore_copy
  rw [if_neg distinct,bind_of_ok checked,if_neg (by rw [untorn before bytesBefore validBefore]; simp)]
  unfold restore_verified
  rw [bind_of_ok (copy_file_succeeds faultless.copy found free),orElseDo_ok,bind_of_ok verified,if_neg]
  · rfl
  · simp [untorn later bytesAfter validAfter,bytesAfter,bytesBefore,validAfter,validBefore,keysAfter,keysBefore,headerAfter,
      headerBefore]

/-- A checkpoint that was made can be restored wherever there is room, as long as it is kept; and what
    was restored opens as the store: with its identity, its map, and so its feed, and a sound log. -/
theorem restored_checkpoint_reopens_store {self : Store} (reachable : Reachable self) {io : CheckpointIo} {copy : Path}
    {disk made : Disk} {report : CheckpointReport} (done : checkpoint_to io self copy disk = .ok report made)
    {later : Disk} (kept : later copy = made copy) {again : RestoreIo} (faultless : again.Faultless) {destination : Path}
    (free : later destination = none) :
    ∃ restored left, restore_copy again copy destination later = .ok restored left ∧ left destination = some self.file ∧
      ∀ world options, world.Faultless → ∃ store last, open_path world destination options left = .ok store last ∧
        store.header = self.header ∧ store.state = self.state ∧ store.Numbered ∧
        records store.file = records self.file := by
  have numbered := reachable.numbered
  obtain ⟨-,added,describes⟩ := (checkpoint_is_all_or_nothing io self copy disk).ok rfl done
  have there : later copy = some self.file := kept.trans added.made
  have distinct : copy ≠ destination := by
    rintro rfl
    rw [there] at free
    cases free
  obtain ⟨recovery,recovers,valid,-⟩ := describes.recovers
  have whole : self.file.length ≤ recovery.valid_end := by
    have reported := describes.whole
    rw [describes.bytes,valid] at reported
    exact reported
  obtain ⟨restored,restores⟩ := restore_succeeds faultless distinct there free numbered.sound.header recovers whole
  refine ⟨restored,_,restores,write_same _ _ _,?_⟩
  intro world options calm_world
  obtain ⟨store,left,opened⟩ := sound_opens destination options calm_world (.inr numbered.sound.file)
  refine ⟨store,(later.write destination self.file).write destination left,?_,?_⟩
  · unfold open_path
    rw [calm_world.1]
    dsimp only
    rw [write_same,Option.getD_some,opened]
  obtain ⟨-,-,recovery,started,opens⟩ := open_ok opened
  obtain ⟨stored,same,-⟩ := open_sound opens (.inr numbered.sound.file)
  refine ⟨?_,?_,opened_numbered opened numbered.sound.file numbered.positive,same⟩
  · have decoded := opens.starts.1.decodes
    have unstarted : started = self.file := by
      rcases opens.starts.2 with equal | ⟨none,-⟩
      · exact equal
      · have long := numbered.sound.header.long
        rw [none] at long
        simp [STORE_HEADER_LEN] at long
    rw [unstarted,numbered.sound.header.decodes] at decoded
    exact (Except.ok.inj decoded).symm
  · rw [stored.state,same,← numbered.sound.state]

end

/-- Nothing fails while a checkpoint is made. -/
def calmCheckpoint : CheckpointIo := { calmGeneration with canonicalize := fun _ => none, copy := ⟨fun _ => none,0⟩ }

def calmRestore : RestoreIo := ⟨calm,⟨fun _ => none,0⟩,calm,none⟩

set_option maxRecDepth 20000 in
/-- A new store comes back from its checkpoint. -/
theorem new_store_comes_back : ∃ store report made restored left,
    @checkpoint_to crates calmCheckpoint store ["b.vstore"] (diskOf store) = .ok report made ∧
    @restore_copy crates calmRestore ["b.vstore"] ["c.vstore"] made = .ok restored left ∧
    left ["c.vstore"] = some store.file := by
  let _ := crates
  have evaluated : passes (@open_with_options crates calm ["a.vstore"] .default []) (fun store _ =>
      passes (@checkpoint_to crates calmCheckpoint store ["b.vstore"] (diskOf store)) (fun _ made =>
        decide (made ["c.vstore"] = none))) = true := by decide +kernel
  obtain ⟨store,left,opened,evaluated⟩ := passes_iff.mp evaluated
  obtain ⟨report,made,done,free⟩ := passes_iff.mp evaluated
  obtain ⟨restored,last,restores,there,-⟩ := @restored_checkpoint_reopens_store crates store (.new opened) _ _ _ _ _ done made
    rfl calmRestore ⟨calm_faultless,fun _ => rfl,calm_faultless⟩ ["c.vstore"] (of_decide_eq_true free)
  exact ⟨store,report,made,restored,last,done,restores,there⟩

end VoodooStore
