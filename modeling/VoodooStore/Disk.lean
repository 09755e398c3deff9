import VoodooStore.FeedRuns

/-!
# Files on a disk

A disk maps paths to files. Opening and verifying a store work on one of them.
A rewrite puts the entries of a map into a new store, in one transaction that
tells the feed nothing; what it leaves is a log of that one transaction
(`rewrite_ok`), whatever the map.
-/
namespace VoodooStore
open Effects Frames
set_option linter.unusedSimpArgs false

/-- The files of a disk. Different paths name different files. -/
abbrev Disk := Path → Option Bytes

def Disk.write (disk : Disk) (path : Path) (file : Bytes) : Disk := fun other => if other = path then some file else disk other
def Disk.remove (disk : Disk) (path : Path) : Disk := fun other => if other = path then none else disk other

@[simp] theorem write_same (disk : Disk) (path : Path) (file : Bytes) : disk.write path file path = some file := if_pos rfl

theorem write_other {disk : Disk} {path other : Path} (file : Bytes) (distinct : other ≠ path) :
    disk.write path file other = disk other := if_neg distinct

@[simp] theorem write_write (disk : Disk) (path : Path) (first second : Bytes) :
    (disk.write path first).write path second = disk.write path second := by
  funext other
  by_cases same : other = path
  · simp [Disk.write,same]
  · simp [Disk.write,same]

@[simp] theorem remove_same (disk : Disk) (path : Path) : disk.remove path path = none := if_pos rfl

theorem remove_other {disk : Disk} {path other : Path} (distinct : other ≠ path) : disk.remove path other = disk other :=
  if_neg distinct

/-- The file that a path should name. -/
def Disk.find (disk : Disk) (path : Path) : Except IoError Bytes :=
  match disk path with
  | none => .error ⟨.Other,"entity not found"⟩
  | some file => .ok file

theorem find_ok {disk : Disk} {path : Path} {file : Bytes} : disk.find path = .ok file ↔ disk path = some file := by
  unfold Disk.find
  cases disk path with
  | none => simp
  | some found => simp

structure VerificationReport where
  header : StoreHeader
  file_bytes : Nat
  valid_bytes : Nat
  records : UInt64
  committed_transactions : Nat
  pending_transactions : Nat
  keys : Nat
  deriving DecidableEq

def VerificationReport.has_torn_tail (self : VerificationReport) : Bool := self.valid_bytes < self.file_bytes

/-- A map is put together again from its entries. -/
theorem apply_entries (state : State) : apply_operations ∅ (state.toList.map (fun entry => .Put entry.1 entry.2)) = state := by
  have inserts : ∀ (entries : List (Bytes × Bytes)) (start : State),
      apply_operations start (entries.map (fun entry => .Put entry.1 entry.2)) = start.insertMany entries := by
    intro entries
    induction entries with
    | nil =>
      intro start
      rw [Std.ExtTreeMap.insertMany_nil]
      rfl
    | cons entry entries ih =>
      intro start
      rw [Std.ExtTreeMap.insertMany_cons]
      exact ih _
  rw [inserts]
  refine Std.ExtTreeMap.ext_getElem? ?_
  intro key
  cases found : state[key]? with
  | some value =>
    refine Std.ExtTreeMap.getElem?_insertMany_list_of_mem Std.ReflCmp.compare_self
      Std.ExtTreeMap.distinct_keys_toList ?_
    exact Std.ExtTreeMap.mem_toList_iff_getElem?_eq_some.mpr found
  | none =>
    rw [Std.ExtTreeMap.getElem?_insertMany_list_of_contains_eq_false]
    · simp
    · simpa using found

theorem scan_all (self : Store) : Store.scan_prefix self [] = self.state.toList := by
  rw [Store.scan_prefix,List.filter_eq_self]
  intro entry _
  rfl

section
variable [Hashes]

def open_path (io : Io) (path : Path) (options : StoreOptions) : EStateM EngineError Disk Store := fun disk =>
  -- The call that creates the file; if it fails there is none.
  match io.fails .open_file with
  | some error => .error (.Io error) disk
  | none =>
    match open_with_options io path options ((disk path).getD []) with
    | .ok store left => .ok store (disk.write path left)
    | .error error left => .error error (disk.write path left)

/-- `Store::open` -/
def open_store (io : Io) (path : Path) : EStateM EngineError Disk Store := open_path io path .default

/-- `Store::verify` -/
def verify (io : Io) (path : Path) : EStateM EngineError Disk VerificationReport := do
  attempt io .open_file .Io
  let file ← lift (((← get).find path).mapError .Io)
  attempt io .lock map_lock_error
  attempt io .header_read .Io
  if file.length < STORE_HEADER_LEN then throw (.Io ⟨.Other,"failed to fill whole buffer"⟩) else
  let header ← lift ((StoreHeader.decode (file.take STORE_HEADER_LEN)).mapError .Header)
  attempt io .open_metadata .Io
  attempt io .recover_seek .Io
  attempt io .recover_read .Io
  let recovery ← lift (recover file)
  return {
    header := header
    file_bytes := file.length
    valid_bytes := recovery.valid_end
    records := recovery.records
    committed_transactions := recovery.committed_transactions
    pending_transactions := recovery.pending_transactions
    keys := recovery.state.size }

/-- `Store::flush` -/
def flush (io : Io) : EStateM EngineError Store Unit := do
  sync_file io .flush (← get).options.durability

/-- Puts of the engine, one after another. -/
def put_entries (io : Io) : List (Bytes × Bytes) → EStateM EngineError Transaction Unit
  | [] => pure ()
  | (key,value) :: entries => do
    put_internal io key value
    put_entries io entries

/-- What is done with the new store of a rewrite. -/
def write_entries (io : Io) (entries : List (Bytes × Bytes)) : EStateM EngineError Store Unit := do
  (if entries = [] then pure () else in_transaction begin_without_cdc (do put_entries io entries; commit io))
  flush io

/-- Work on an open store shows in its file. -/
def on_file {α : Type} (store : Store) (x : EStateM EngineError Store α) : EStateM EngineError Disk α := fun disk =>
  match x store with
  | .ok a t => .ok a (disk.write store.path t.file)
  | .error error t => .error error (disk.write store.path t.file)

/-- The block in which a rewrite makes its destination. -/
def rewrite_to (io : Io) (entries : List (Bytes × Bytes)) (destination : Path) : EStateM EngineError Disk Unit := do
  let compacted ← open_store io destination
  on_file compacted (write_entries io entries)

/-! ## What these do -/

theorem open_path_ok {io : Io} {path : Path} {options : StoreOptions} {disk left : Disk} {store : Store}
    (opened : open_path io path options disk = .ok store left) :
    open_with_options io path options ((disk path).getD []) = .ok store store.file ∧ left = disk.write path store.file := by
  unfold open_path at opened
  cases fails : io.fails .open_file with
  | some error => rw [fails] at opened; cases opened
  | none =>
    rw [fails] at opened
    dsimp only at opened
    cases result : open_with_options io path options ((disk path).getD []) with
    | error e file => rw [result] at opened; cases opened
    | ok found file =>
      rw [result] at opened
      cases opened
      obtain ⟨same,-⟩ := open_ok result
      rw [same]
      exact ⟨rfl,rfl⟩

/-- Verifying leaves the disk alone and reports what recovery finds. -/
theorem verify_ok {io : Io} {path : Path} {disk left : Disk} {report : VerificationReport}
    (verified : verify io path disk = .ok report left) : left = disk ∧ ∃ file recovery, disk path = some file ∧
      HasHeader file report.header ∧ recover file = .ok recovery ∧ report.file_bytes = file.length ∧
      report.valid_bytes = recovery.valid_end ∧ report.keys = recovery.state.size := by
  unfold verify at verified
  obtain ⟨-,verified⟩ := attempt_bind_ok.mp verified
  rw [get_bind] at verified
  obtain ⟨file,found,verified⟩ := lift_bind_ok.mp verified
  obtain ⟨-,verified⟩ := attempt_bind_ok.mp verified
  obtain ⟨-,verified⟩ := attempt_bind_ok.mp verified
  split at verified
  · cases verified
  · rename_i long
    obtain ⟨header,decoded,verified⟩ := lift_bind_ok.mp verified
    obtain ⟨-,verified⟩ := attempt_bind_ok.mp verified
    obtain ⟨-,verified⟩ := attempt_bind_ok.mp verified
    obtain ⟨-,verified⟩ := attempt_bind_ok.mp verified
    obtain ⟨recovery,recovers,verified⟩ := lift_bind_ok.mp verified
    cases verified
    refine ⟨rfl,file,recovery,find_ok.mp (mapError_eq_ok.mp found),⟨by omega,?_⟩,recovers,rfl,rfl,rfl⟩
    exact mapError_eq_ok.mp decoded

/-- Without faults, a file whose header and log are in order verifies. -/
theorem verify_succeeds {io : Io} {path : Path} {disk : Disk} {file : Bytes} {header : StoreHeader} {recovery : Recovery}
    (faultless : io.Faultless) (found : disk path = some file) (has : HasHeader file header)
    (recovers : recover file = .ok recovery) : ∃ report, verify io path disk = .ok report disk ∧
      report.header = header ∧ report.file_bytes = file.length ∧ report.valid_bytes = recovery.valid_end ∧
      report.keys = recovery.state.size := by
  have long := has.long
  refine ⟨⟨header,file.length,recovery.valid_end,recovery.records,recovery.committed_transactions,
    recovery.pending_transactions,recovery.state.size⟩,?_,rfl,rfl,rfl,rfl⟩
  unfold verify
  rw [attempt_bind_ok]
  refine ⟨faultless.1 _,?_⟩
  rw [get_bind,find_ok.mpr found,mapError_ok,bind_of_ok (lift_ok _ _),attempt_bind_ok]
  refine ⟨faultless.1 _,attempt_bind_ok.mpr ⟨faultless.1 _,?_⟩⟩
  rw [if_neg (by omega),has.decodes,mapError_ok,bind_of_ok (lift_ok _ _),attempt_bind_ok]
  refine ⟨faultless.1 _,attempt_bind_ok.mpr ⟨faultless.1 _,attempt_bind_ok.mpr ⟨faultless.1 _,?_⟩⟩⟩
  rw [recovers,bind_of_ok (lift_ok _ _)]
  rfl

theorem verify_error {io : Io} {path : Path} {disk left : Disk} {e : EngineError}
    (failed : verify io path disk = .error e left) : left = disk := by
  unfold verify at failed
  rcases attempt_bind_error.mp failed with ⟨-,same⟩ | ⟨-,failed⟩
  · exact same
  rw [get_bind] at failed
  rcases lift_bind_error.mp failed with ⟨-,same⟩ | ⟨file,-,failed⟩
  · exact same
  rcases attempt_bind_error.mp failed with ⟨-,same⟩ | ⟨-,failed⟩
  · exact same
  rcases attempt_bind_error.mp failed with ⟨-,same⟩ | ⟨-,failed⟩
  · exact same
  split at failed
  · cases failed
    rfl
  rcases lift_bind_error.mp failed with ⟨-,same⟩ | ⟨header,-,failed⟩
  · exact same
  rcases attempt_bind_error.mp failed with ⟨-,same⟩ | ⟨-,failed⟩
  · exact same
  rcases attempt_bind_error.mp failed with ⟨-,same⟩ | ⟨-,failed⟩
  · exact same
  rcases attempt_bind_error.mp failed with ⟨-,same⟩ | ⟨-,failed⟩
  · exact same
  rcases lift_bind_error.mp failed with ⟨-,same⟩ | ⟨recovery,-,failed⟩
  · exact same
  cases failed

/-! ## Rewrites -/

theorem append_counts {io : Io} {kind : RecordKind} {tx_id : UInt64} {payload : Bytes} {s t : Store} {u : Unit}
    (done : append io kind tx_id payload s = .ok u t) : t.next_sequence.toNat = s.next_sequence.toNat + 1 := by
  rw [append,get_bind] at done
  cases added : s.next_sequence.checked_add 1 with
  | none => rw [added] at done; cases done
  | some next =>
    rw [added] at done
    dsimp only at done
    rw [modify_bind] at done
    obtain ⟨bytes,-,done⟩ := lift_bind_ok.mp done
    rw [get_bind] at done
    obtain ⟨_,-,done⟩ := lift_bind_ok.mp done
    obtain ⟨-,done⟩ := attempt_bind_ok.mp done
    cases wrote : io.fails (.append_write s.next_sequence) with
    | some error => rw [wrote] at done; cases done
    | none =>
      rw [wrote] at done
      cases done
      exact u64_checked_add_some added

theorem stage_counts {io : Io} {kind : RecordKind} {encoded : Except EngineError Bytes} {operation : Operation}
    {tx u : Transaction} {x : Unit} (done : stage io kind encoded operation tx = .ok x u) :
    u.store.next_sequence.toNat = tx.store.next_sequence.toNat + 1 := by
  rw [stage,get_bind] at done
  obtain ⟨_,-,done⟩ := lift_bind_ok.mp done
  obtain ⟨payload,-,done⟩ := lift_bind_ok.mp done
  rw [get_bind] at done
  obtain ⟨_,middle,appended,done⟩ := bind_ok.mp done
  obtain ⟨store,appends,rfl⟩ := zoom_ok.mp appended
  cases done
  exact append_counts appends

/-- A transaction that tells the feed nothing commits with one record. -/
theorem silent_commit_ok {io : Io} {tx u : Transaction} {x : Unit} (silent : tx.emit_cdc = false)
    (done : commit io tx = .ok x u) : ∃ r, Written tx u [] r ∧
      u.store.state = apply_operations tx.store.state tx.operations ∧
      u.store.next_sequence.toNat = tx.store.next_sequence.toNat + 1 := by
  have own : ownChanges tx = [] := by rw [ownChanges,silent]; rfl
  obtain ⟨rs,r,written,applied⟩ := commit_ok done
  have none : rs = [] := by
    have stored := written.changes
    rw [own] at stored
    cases rs with
    | nil => rfl
    | cons t rs =>
      obtain ⟨operation,found⟩ := Option.ne_none_iff_exists'.mp (written.stages t (by simp))
      simp [found] at stored
  subst none
  rw [written.operations,own,List.append_nil] at applied
  refine ⟨r,written,applied,?_⟩
  unfold commit at done
  cases inner : commit_inner io tx with
  | error e left => rw [inner] at done; cases done
  | ok y v =>
    rw [inner] at done
    cases done
    rw [commit_inner,get_bind] at inner
    obtain ⟨_,-,inner⟩ := lift_bind_ok.mp inner
    obtain ⟨_,middle,staging,inner⟩ := bind_ok.mp inner
    rw [stage_own_changes,get_bind,silent] at staging
    cases staging
    rw [get_bind] at inner
    obtain ⟨_,-,inner⟩ := lift_bind_ok.mp inner
    obtain ⟨_,last,appending,inner⟩ := bind_ok.mp inner
    obtain ⟨store,appended,rfl⟩ := zoom_ok.mp appending
    have counts := append_counts appended
    obtain ⟨_,synced,syncing,inner⟩ := bind_ok.mp inner
    obtain ⟨-,rfl⟩ := sync_ok.mp syncing
    cases inner
    exact counts

theorem put_entries_ok {io : Io} {entries : List (Bytes × Bytes)} {tx u : Transaction} {x : Unit}
    (done : put_entries io entries tx = .ok x u) : ∃ rs, Staged tx u rs [] ∧
      rs.filterMap LogRecord.operation = entries.map (fun entry => .Put entry.1 entry.2) ∧
      u.store.next_sequence.toNat = tx.store.next_sequence.toNat + entries.length := by
  induction entries generalizing tx with
  | nil =>
    cases done
    exact ⟨[],.refl _,rfl,rfl⟩
  | cons entry entries ih =>
    obtain ⟨key,value⟩ := entry
    rw [put_entries] at done
    obtain ⟨_,middle,first,rest⟩ := bind_ok.mp done
    obtain ⟨r,staged,stores⟩ := stage_ok (put_spells key value) first
    have counted := stage_counts first
    obtain ⟨rs,later,stored,count⟩ := ih rest
    refine ⟨[r] ++ rs,staged.trans later,?_,?_⟩
    · rw [List.filterMap_append,stored,List.filterMap_cons,stores]
      rfl
    · rw [List.length_cons]
      omega

/-- A file with the given map and a log of at most one transaction, which is the first. -/
structure Rewritten (held : State) (file : Bytes) : Prop where
  sound : FileSound file
  whole : fragment file = []
  state : committedState (records file) = held
  first : ∀ r ∈ records file, r.tx_id = 1
  written : held ≠ ∅ ↔ records file ≠ []
  last : (lastSequence (records file)).toNat ≤ held.size + 1

/-- A store that was just made. -/
theorem new_store {io : Io} {path : Path} {options : StoreOptions} {store : Store} {left : Bytes}
    (opened : open_with_options io path options [] = .ok store left) : store.Sound ∧ records store.file = [] ∧
      fragment store.file = [] ∧ store.state = ∅ ∧ store.next_tx_id = 1 ∧ store.next_sequence = 1 := by
  obtain ⟨-,-,recovery,started,opens⟩ := open_ok opened
  obtain ⟨sound,read,tail⟩ := open_sound opens (.inl rfl)
  rw [records_nil.1] at read
  rw [records_nil.2,ite_self] at tail
  obtain ⟨acc,replayed,-,reported⟩ := recover_ok_iff.mp opens.recovers
  rw [(opens.starts.records).1,records_nil.1] at replayed
  have counted : recovery.max_tx_id = 0 ∧ recovery.max_sequence = 0 := by
    cases replayed
    rw [reported]
    exact ⟨rfl,rfl⟩
  have txCounter := opens.next_tx_id
  have sequenceCounter := opens.next_sequence
  rw [counted.1] at txCounter
  rw [counted.2] at sequenceCounter
  refine ⟨sound,read,tail,?_,(Except.ok.inj txCounter).symm,(Except.ok.inj sequenceCounter).symm⟩
  rw [sound.state,read]
  rfl

/-- Writing the entries of a map to a new store makes a file with that map. -/
theorem write_entries_ok {io : Io} {state : State} {store t : Store} {x : Unit} (sound : store.Sound)
    (nothing : records store.file = []) (whole : fragment store.file = []) (empty : store.state = ∅)
    (firstTx : store.next_tx_id = 1) (firstRecord : store.next_sequence = 1)
    (done : write_entries io state.toList store = .ok x t) : Rewritten state t.file ∧ t.header = store.header := by
  rw [write_entries] at done
  obtain ⟨_,middle,wrote,flushed⟩ := bind_ok.mp done
  have same : t = middle := by
    rw [flush,get_bind] at flushed
    exact (sync_ok.mp flushed).2
  subst same
  by_cases none : state.toList = []
  · rw [if_pos none] at wrote
    cases wrote
    have bare : state = ∅ := Std.ExtTreeMap.toList_eq_nil_iff.mp none
    refine ⟨⟨sound.file,whole,?_,?_,?_,?_⟩,rfl⟩
    · rw [← sound.state,empty,bare]
    · rw [nothing]
      simp
    · simp [bare,nothing]
    · rw [nothing]
      exact Nat.zero_le _
  · rw [if_neg none] at wrote
    unfold in_transaction at wrote
    cases begun : begin_without_cdc store with
    | error e => rw [begun] at wrote; cases wrote
    | ok tx =>
      rw [begun] at wrote
      dsimp only at wrote
      cases result : (do put_entries io state.toList; commit io : EStateM EngineError Transaction Unit) tx with
      | error e u => rw [result] at wrote; cases wrote
      | ok y u =>
        rw [result] at wrote
        cases wrote
        obtain ⟨_,full,puts,committed⟩ := bind_ok.mp result
        obtain ⟨rs,staged,stored,count⟩ := put_entries_ok puts
        obtain ⟨id,-,nothingStaged,silent,-,borrowed⟩ := begin_ok begun
        obtain ⟨r,written,applied,last⟩ := silent_commit_ok (staged.emit_cdc.trans silent) committed
        obtain ⟨begins,sameFile⟩ := begin_sound sound begun
        have tail : fragment tx.store.file = [] := by rw [sameFile]; exact whole
        obtain ⟨stages,-,left⟩ := begins.stages staged recordHead_nil (.inl tail)
        have clean := left tail
        have entries : full.operations = state.toList.map (fun entry => .Put entry.1 entry.2) := by
          rw [staged.operations,nothingStaged,List.nil_append,stored]
        have wholeState : u.store.state = state := by
          rw [applied,staged.grown.state,show tx.store.state = store.state by rw [borrowed],empty,entries,apply_entries]
        have own : ownChanges full = [] := by
          rw [ownChanges,staged.emit_cdc,silent]
          rfl
        have applies : u.store.state = apply_operations full.store.state u.operations := by
          rw [applied,written.operations,own,List.append_nil]
        obtain ⟨commits,ends,-⟩ := stages.commits written (.inl clean) applies
        have readStaged : records full.store.file = rs := by
          obtain ⟨read,-⟩ := records_grow begins.store.header.long tail staged.grown.fits recordHead_nil
          rw [staged.grown.file,read,sameFile,nothing,List.nil_append]
        have readAll : records u.store.file = rs ++ [r] := by
          obtain ⟨read,-⟩ := records_grow stages.store.header.long clean written.fits recordHead_nil
          rw [List.append_nil,← written.file,readStaged] at read
          exact read
        have mine : ∀ other ∈ rs ++ [r], other.tx_id = 1 := by
          intro other member
          rw [← firstTx,← id]
          rcases List.mem_append.mp member with early | late
          · exact staged.mine other early
          · rw [List.mem_singleton.mp late]
            exact (written.mine r (by simp)).trans staged.tx_id
        have bound := UInt64.lt_iff_toNat_lt.mp (written.numbered.range r (by simp)).2
        have start : tx.store.next_sequence.toNat = 1 := by rw [borrowed,firstRecord]; rfl
        rw [Std.ExtTreeMap.length_toList] at count
        refine ⟨⟨commits.file,ends,?_,?_,?_,?_⟩,?_⟩
        · rw [← commits.state,wholeState]
        · rw [readAll]
          exact mine
        · have full : state ≠ ∅ := fun bare => none (Std.ExtTreeMap.toList_eq_nil_iff.mpr bare)
          simp [full,readAll]
        · rw [readAll,lastSequence_snoc]
          omega
        · rw [written.header,staged.grown.header,borrowed]

/-- A rewrite that succeeds has made its destination, and touched nothing else. -/
theorem rewrite_ok {io : Io} {state : State} {destination : Path} {disk left : Disk} {x : Unit}
    (free : (disk destination).getD [] = []) (done : rewrite_to io state.toList destination disk = .ok x left) :
    ∃ file, left = disk.write destination file ∧ Rewritten state file := by
  rw [rewrite_to] at done
  obtain ⟨store,middle,opened,wrote⟩ := bind_ok.mp done
  obtain ⟨opens,rfl⟩ := open_path_ok opened
  rw [free] at opens
  obtain ⟨sound,nothing,whole,empty,firstTx,firstRecord⟩ := new_store opens
  obtain ⟨-,path,-⟩ := open_ok opens
  unfold on_file at wrote
  cases result : write_entries io state.toList store with
  | error e t => rw [result] at wrote; cases wrote
  | ok y t =>
    rw [result] at wrote
    cases wrote
    obtain ⟨rewritten,-⟩ := write_entries_ok sound nothing whole empty firstTx firstRecord result
    exact ⟨t.file,by rw [path,write_write],rewritten⟩

end

end VoodooStore
