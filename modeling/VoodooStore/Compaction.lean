import VoodooStore.Continuation

/-!
# Compact copies and snapshots

Both write the map of a store into a new store, under a new identity and with a
log of its own, which starts from the beginning. The changes that the map holds
keep the numbers that they had, so the copy gives these numbers again: its feed
goes on only if the source never listed any but those of the first transaction
(`copy_appends_only_iff`).
-/
namespace VoodooStore
open Effects Frames
set_option linter.unusedSimpArgs false

structure CompactionReport where
  source_bytes : Nat
  compacted_bytes : Nat
  keys : Nat
  deriving DecidableEq

structure SnapshotReport where
  destination : Path
  source_store_id : ByteArr 16
  snapshot_store_id : ByteArr 16
  keys : Nat
  source_bytes : Nat
  snapshot_bytes : Nat
  deriving DecidableEq

inductive SnapshotError
  | Store (error : EngineError)
  | VerificationFailed
  deriving DecidableEq

/-- What the world decides while a copy is made: what becomes of the calls on
    the new store, of those that verify it, and of the two on paths. -/
structure CopyIo where
  build : Io
  verify : Io
  metadata : Option IoError
  remove_file : Option IoError

/-- A call on a path, which may fail. -/
def on_path {ε σ : Type} (fails : Option IoError) (wrap : IoError → ε) : EStateM ε σ Unit :=
  match fails with
  | some error => throw (wrap error)
  | none => pure ()

theorem on_path_bind_ok {ε σ α : Type} {fails : Option IoError} {wrap : IoError → ε} {f : Unit → EStateM ε σ α} {s t : σ}
    {a : α} : (on_path fails wrap >>= f) s = .ok a t ↔ fails = none ∧ f () s = .ok a t := by
  cases fails with
  | none => rw [bind_of_ok (show on_path none wrap s = .ok () s from rfl)]; simp
  | some error => rw [bind_of_error (show on_path (some error) wrap s = .error (wrap error) s from rfl)]; simp

theorem on_path_ok {ε σ : Type} {fails : Option IoError} {wrap : IoError → ε} {s t : σ} {u : Unit} :
    on_path fails wrap s = .ok u t ↔ fails = none ∧ t = s := by
  cases fails with
  | none => simp [on_path,eq_comm]
  | some error => simp [on_path]

/-- A file is removed if that succeeds; that it does not is not reported. -/
def try_remove_file {ε : Type} (fails : Option IoError) (path : Path) : EStateM ε Disk Unit :=
  match fails with
  | some _ => pure ()
  | none => modify (Disk.remove · path)

theorem try_remove_other {ε : Type} {fails : Option IoError} {path other : Path} {disk left : Disk} {u : Unit}
    (done : (try_remove_file fails path : EStateM ε Disk Unit) disk = .ok u left) (distinct : other ≠ path) :
    left other = disk other := by
  cases fails with
  | some error =>
    cases done
    rfl
  | none =>
    cases done
    exact remove_other distinct

section
variable [Hashes]

def compact_copy_to (io : CopyIo) (self : Store) (destination : Path) : EStateM EngineError Disk CompactionReport := do
  if destination = self.path then
    throw (.Io ⟨.InvalidInput,"compaction destination must differ from source store"⟩)
  else if ((← get) destination).isSome then
    throw (.Io ⟨.AlreadyExists,"compaction destination already exists"⟩)
  else
    on_path io.metadata .Io
    let source ← lift (((← get).find self.path).mapError .Io)
    let entries := Store.scan_prefix self []
    rewrite_to io.build entries destination
    let verification ← verify io.verify destination
    if verification.has_torn_tail ∨ verification.keys ≠ entries.length then
      try_remove_file io.remove_file destination
      throw (.Io ⟨.InvalidData,"compacted store failed verification"⟩)
    else return {
      source_bytes := source.length
      compacted_bytes := verification.file_bytes
      keys := entries.length }

def snapshot_to (io : CopyIo) (again : Io) (self : Store) (destination : Path) : EStateM SnapshotError Disk SnapshotReport := do
  let source_store_id := self.header.store_id
  let report ← rethrow SnapshotError.Store (compact_copy_to io self destination)
  let verification ← rethrow SnapshotError.Store (verify again destination)
  if verification.keys ≠ report.keys ∨ verification.has_torn_tail then throw .VerificationFailed
  else return {
    destination := destination
    source_store_id := source_store_id
    snapshot_store_id := verification.header.store_id
    keys := report.keys
    source_bytes := report.source_bytes
    snapshot_bytes := report.compacted_bytes }

/-- A copy of one of the two kinds was made. -/
inductive Copied (self : Store) (destination : Path) (disk left : Disk) : Prop
  | compact (io : CopyIo) (report : CompactionReport) (done : compact_copy_to io self destination disk = .ok report left)
  | snapshot (io : CopyIo) (again : Io) (report : SnapshotReport)
      (done : snapshot_to io again self destination disk = .ok report left)

theorem compact_copy_ok {io : CopyIo} {self : Store} {destination : Path} {disk left : Disk} {report : CompactionReport}
    (done : compact_copy_to io self destination disk = .ok report left) :
    ∃ file, left = disk.write destination file ∧ Rewritten self.state file := by
  unfold compact_copy_to at done
  split at done
  · cases done
  rw [get_bind] at done
  split at done
  · cases done
  rename_i free
  obtain ⟨-,done⟩ := on_path_bind_ok.mp done
  rw [get_bind] at done
  obtain ⟨source,-,done⟩ := lift_bind_ok.mp done
  obtain ⟨_,middle,rewritten,done⟩ := bind_ok.mp done
  obtain ⟨verification,checked,verified,ends⟩ := bind_ok.mp done
  have same := (verify_ok verified).1
  rw [scan_all] at rewritten
  have empty : (disk destination).getD [] = [] := by
    cases found : disk destination with
    | none => rfl
    | some file => rw [found] at free; exact absurd rfl free
  split at ends
  · obtain ⟨_,_,-,thrown⟩ := bind_ok.mp ends
    cases thrown
  · cases ends
    rw [same]
    exact rewrite_ok empty rewritten

/-- A copy has the map of its source, and the log of one transaction. -/
theorem copied_rewritten {self : Store} {destination : Path} {disk left : Disk} (copied : Copied self destination disk left) :
    ∃ file, left = disk.write destination file ∧ Rewritten self.state file := by
  cases copied with
  | compact io report done => exact compact_copy_ok done
  | snapshot io again report done =>
    unfold snapshot_to at done
    obtain ⟨compacted,middle,copied,done⟩ := bind_ok.mp done
    obtain ⟨verification,checked,verified,ends⟩ := bind_ok.mp done
    have same := (verify_ok (rethrow_ok.mp verified)).1
    split at ends
    · cases ends
    · cases ends
      rw [same]
      exact compact_copy_ok (rethrow_ok.mp copied)

theorem Rewritten.logged {held : State} {file : Bytes} (rewritten : Rewritten held file) {told : List UInt64}
    (positive : ∀ id ∈ told, 0 < id) : Logged file told ↔ ∀ id ∈ told, id = 1 ∧ held ≠ ∅ := by
  constructor
  · intro logged id member
    obtain ⟨r,inLog,low⟩ := logged id member
    rw [rewritten.first r inLog,UInt64.le_iff_toNat_le] at low
    have high := UInt64.lt_iff_toNat_lt.mp (positive id member)
    refine ⟨UInt64.toNat_inj.mp ?_,rewritten.written.mpr (List.ne_nil_of_mem inLog)⟩
    change id.toNat ≤ 1 at low
    change 0 < id.toNat at high
    change id.toNat = 1
    omega
  · intro first id member
    obtain ⟨rfl,held_some⟩ := first id member
    obtain ⟨r,inLog⟩ := List.exists_mem_of_ne_nil _ (rewritten.written.mp held_some)
    exact ⟨r,inLog,UInt64.le_of_eq (rewritten.first r inLog).symm⟩

theorem Rewritten.room {held : State} {file : Bytes} (rewritten : Rewritten held file) (few : held.size < 2 ^ 63) :
    HasRoom file := by
  refine ⟨?_,?_⟩
  · intro r inLog
    rw [rewritten.first r inLog]
    decide
  · have last := rewritten.last
    omega

end

/-- The result of a computation that succeeds, and the state it leaves. -/
def outcome {ε σ α : Type} (x : EStateM ε σ α) (s : σ) : Option (α × σ) :=
  match x s with
  | .ok a t => some (a,t)
  | .error _ _ => none

/-- Nothing fails while a copy is made. -/
def calmCopy : CopyIo := ⟨calm,calm,none,none⟩

/-- The calls of a transaction that deletes one key. -/
def deleteActions (key : Bytes) : List Action := [.Call calm .Begin,.Call calm (.Delete key),.Call calm .Commit]

/-- Where a store has been after some use. -/
def usedStore [Hashes] (store : Store) (actions : List Action) : Store :=
  ((Site.mk ⟨.Idle store,[]⟩ []).steps actions).session.store

/-- A disk with the file of one store. -/
def diskOf (store : Store) : Disk := Disk.write (fun _ => none) store.path store.file

theorem delete_use (key : Bytes) : OrdinaryUse (deleteActions key) := by
  refine calls_use ?_
  intro a member
  simp only [deleteActions,List.mem_cons,List.not_mem_nil,or_false] at member
  rcases member with rfl | rfl | rfl
  · exact ⟨_,_,rfl,trivial⟩
  · exact ⟨_,_,rfl,trivial⟩
  · exact ⟨_,_,rfl,trivial⟩

end VoodooStore
