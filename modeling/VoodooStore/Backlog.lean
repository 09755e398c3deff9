import VoodooStore.Namespaces
import VoodooStore.Generation
import VoodooStore.QueueHealth
import VoodooStore.Totals

/-!
# The compaction backlog

A file has a record for each entry of the map that it recovers to, with the key
and the value in it. So no rewrite is smaller than the keys and values that are
live, and what it reclaims is at most the backlog of the report.
-/
namespace VoodooStore
open Effects Frames
set_option linter.unusedSimpArgs false

def CompactionReport.bytes_reclaimed (self : CompactionReport) : Nat := self.source_bytes - self.compacted_bytes

def GenerationReport.bytes_reclaimed (self : GenerationReport) : Nat := self.source_bytes - self.generation_bytes

/-- The bytes of the keys and the values. -/
def liveSize (state : State) : Nat := (state.toList.map (fun entry => entry.1.length + entry.2.length)).sum

/-- The bytes of a key and a value that an operation stores. -/
def Operation.size : Operation → Nat
  | .Put key value => key.length + value.length
  | .Delete _ => 0

/-! ## Entries and the records that store them -/

theorem apply_entry {state : State} {operations : List Operation} {key value : Bytes}
    (found : (apply_operations state operations)[key]? = some value) :
    state[key]? = some value ∨ .Put key value ∈ operations := by
  induction operations generalizing state with
  | nil => exact .inl found
  | cons operation operations ih =>
    rcases ih found with early | later
    · cases operation with
      | Put k v =>
        rw [apply_operation,Std.ExtTreeMap.getElem?_insert] at early
        split at early
        · rename_i same
          rw [Std.LawfulEqCmp.compare_eq_iff_eq] at same
          cases same
          cases early
          exact .inr (.head _)
        · exact .inl early
      | Delete k =>
        rw [apply_operation,Std.ExtTreeMap.getElem?_erase] at early
        split at early
        · cases early
        · exact .inl early
    · exact .inr (List.mem_cons_of_mem _ later)

theorem committed_entry {rs : List LogRecord} {key value : Bytes} (found : (committedState rs)[key]? = some value) :
    .Put key value ∈ rs.filterMap LogRecord.operation := by
  -- Whichever transactions have been applied.
  have all : ∀ (ids : List UInt64) (state : State),
      (∀ k v : Bytes, state[k]? = some v → .Put k v ∈ rs.filterMap LogRecord.operation) → ∀ k v : Bytes,
      (ids.foldl (fun state tx_id => apply_operations state (stagedBy tx_id rs)) state)[k]? = some v →
        .Put k v ∈ rs.filterMap LogRecord.operation := by
    intro ids
    induction ids with
    | nil => exact fun state known => known
    | cons id ids ih =>
      intro state known
      refine ih _ ?_
      intro k v present
      rcases apply_entry present with early | staged
      · exact known k v early
      · obtain ⟨r,inside,operates⟩ := List.mem_filterMap.mp staged
        split at operates
        · exact List.mem_filterMap.mpr ⟨r,inside,operates⟩
        · cases operates
  exact all (commits rs) ∅ (fun k v present => absurd present (by simp)) key value found

theorem sum_le_of_subset {α : Type} {l m : List α} (distinct : l.Nodup) (inside : l ⊆ m) (f : α → Nat) :
    (l.map f).sum ≤ (m.map f).sum := by
  obtain ⟨same,permuted,sub⟩ := distinct.subperm inside
  calc (l.map f).sum = (same.map f).sum := (permuted.map f).sum_eq.symm
    _ ≤ (m.map f).sum := (sub.map f).sum_le_sum (fun _ _ => Nat.zero_le _)

theorem live_size_le (rs : List LogRecord) :
    liveSize (committedState rs) ≤ ((rs.filterMap LogRecord.operation).map Operation.size).sum := by
  have distinct : ((committedState rs).toList.map (fun entry => Operation.Put entry.1 entry.2)).Nodup := by
    have listed : (committedState rs).toList.Nodup := by
      refine List.Nodup.of_map Prod.fst ?_
      have all := scan_keys_nodup (committedState rs) []
      simpa [scan,starts_with] using all
    refine listed.map ?_
    rintro ⟨a,b⟩ ⟨c,d⟩ same
    cases same
    rfl
  have inside : (committedState rs).toList.map (fun entry => Operation.Put entry.1 entry.2) ⊆ rs.filterMap LogRecord.operation := by
    intro _ member
    obtain ⟨⟨key,value⟩,listed,rfl⟩ := List.mem_map.mp member
    exact committed_entry (Std.ExtTreeMap.mem_toList_iff_getElem?_eq_some.mp listed)
  have sizes := sum_le_of_subset distinct inside Operation.size
  rw [List.map_map] at sizes
  exact sizes

theorem operation_size {r : LogRecord} {operation : Operation} (operates : r.operation = some operation) :
    operation.size ≤ r.payload.length := by
  cases operation with
  | Delete key => exact Nat.zero_le _
  | Put key value =>
    unfold LogRecord.operation at operates
    split at operates
    · have decoded : decode_put r.payload = .ok (.Put key value) := by
        cases result : decode_put r.payload with
        | error e => rw [result] at operates; cases operates
        | ok operation => rw [result] at operates; cases operates; rfl
      have encoded := encode_put_decode decoded
      unfold encode_put at encoded
      split at encoded
      · cases encoded
      · have length := congrArg List.length (Except.ok.inj encoded)
        rw [List.length_append,List.length_append] at length
        show key.length + value.length ≤ r.payload.length
        omega
    · cases result : decode_delete r.payload with
      | error e => rw [result] at operates; cases operates
      | ok operation =>
        rw [result] at operates
        cases operates
        obtain ⟨_,other⟩ := decode_delete_is_delete result
        cases other
    · cases operates

section
variable [Hashes]

theorem frames_size (rs : List LogRecord) : ((rs.filterMap LogRecord.operation).map Operation.size).sum ≤ (frames rs).length := by
  induction rs with
  | nil => exact Nat.zero_le _
  | cons r rs ih =>
    have split : (frames (r :: rs)).length = r.frame.length + (frames rs).length := by
      rw [← List.length_append]
      rfl
    rw [split,frame_length]
    cases operates : r.operation with
    | none =>
      rw [List.filterMap_cons_none operates]
      omega
    | some operation =>
      have size := operation_size operates
      rw [List.filterMap_cons_some operates,List.map_cons,List.sum_cons]
      omega

/-- A file is never smaller than the keys and values that it recovers to. -/
theorem live_size_le_file {file : Bytes} {recovery : Recovery} (recovers : recover file = .ok recovery) :
    liveSize recovery.state ≤ file.length := by
  obtain ⟨acc,replayed,-,reported⟩ := recover_ok_iff.mp recovers
  have state : recovery.state = committedState (records file) := by
    rw [reported]
    exact (replay_ok replayed).state
  have whole := congrArg List.length (frames_fragment file)
  rw [List.length_append,List.length_drop] at whole
  calc liveSize recovery.state ≤ ((records file).filterMap LogRecord.operation |>.map Operation.size).sum := state ▸ live_size_le _
    _ ≤ (frames (records file)).length := frames_size _
    _ ≤ file.length := by omega

end

/-! ## The accounts of a report -/

theorem checked_size {counted total : UInt64} {size : Nat}
    (counts : (ok_or .AccountingOverflow (counted.checked_add (.ofNat size)) : Except OperationsError UInt64) = .ok total) :
    total.toNat ≤ counted.toNat + size := by
  cases added : counted.checked_add (.ofNat size) with
  | none =>
    rw [added] at counts
    cases counts
  | some sum =>
    rw [added] at counts
    cases counts
    have exact_sum := u64_checked_add_some added
    have wrapped : (UInt64.ofNat size).toNat ≤ size := by
      rw [UInt64.toNat_ofNat']
      exact Nat.mod_le _ _
    omega

theorem count_storage_size {stats done : StorageStats} {entries : List (Bytes × Bytes)}
    (counted : count_storage stats entries = .ok done) : done.file_bytes = stats.file_bytes ∧
      done.key_bytes.toNat + done.value_bytes.toNat ≤
        stats.key_bytes.toNat + stats.value_bytes.toNat + (entries.map (fun entry => entry.1.length + entry.2.length)).sum := by
  induction entries generalizing stats with
  | nil =>
    cases counted
    exact ⟨rfl,Nat.le_refl _⟩
  | cons entry entries ih =>
    obtain ⟨key,value⟩ := entry
    unfold count_storage at counted
    dsimp only at counted
    obtain ⟨key_bytes,keys,counted⟩ := bind_ok_iff.mp counted
    obtain ⟨value_bytes,values,counted⟩ := bind_ok_iff.mp counted
    obtain ⟨file,sizes⟩ := ih counted
    have keySize := checked_size keys
    have valueSize := checked_size values
    rw [List.map_cons,List.sum_cons]
    dsimp only
    split at file <;> rename_i reserved <;> simp only [reserved,if_true,if_false,Bool.false_eq_true] at sizes keySize valueSize
    · exact ⟨file,by omega⟩
    · exact ⟨file,by omega⟩

/-- The sum of keys and values may wrap, and is then smaller. -/
theorem storage_stats_size {store : Store} {around : Surroundings} {stats : StorageStats}
    (done : store.storage_stats around = .ok stats) :
    around.metadata = .ok stats.file_bytes ∧ stats.live_bytes.toNat ≤ liveSize store.state := by
  obtain ⟨file_bytes,measured,counted⟩ := bind_ok_iff.mp done
  obtain ⟨file,sizes⟩ := count_storage_size counted
  rw [scan_all] at sizes
  constructor
  · rw [file]
    exact mapError_eq_ok.mp measured
  · have wrapped : stats.live_bytes.toNat ≤ stats.key_bytes.toNat + stats.value_bytes.toNat := by
      rw [StorageStats.live_bytes,UInt64.toNat_add]
      exact Nat.mod_le _ _
    unfold liveSize
    simpa using wrapped.trans sizes

theorem backlog_size {store : Store} {around : Surroundings} {health : HealthReport} (reported : store.health_report around = .ok health) :
    ∃ file_bytes : UInt64, around.metadata = .ok file_bytes ∧
      file_bytes.toNat - liveSize store.state ≤ health.compaction_backlog_bytes.toNat := by
  obtain ⟨storage,stored,reported⟩ := bind_ok_iff.mp reported
  obtain ⟨namespaces,-,reported⟩ := bind_ok_iff.mp reported
  obtain ⟨queues,-,reported⟩ := bind_ok_iff.mp reported
  cases reported
  obtain ⟨measured,live⟩ := storage_stats_size stored
  refine ⟨storage.file_bytes,measured,?_⟩
  dsimp only
  rw [u64_saturating_sub]
  omega

/-! ## The reports of rewrites -/

section
variable [Hashes]

/-- The size that a verification reports is that of a file with this map. -/
theorem verified_size {io : Io} {path : Path} {disk left : Disk} {report : VerificationReport} {state : State}
    (verified : verify io path disk = .ok report left) (recovers : ∀ file, disk path = some file → RecoversTo file state) :
    liveSize state ≤ report.file_bytes := by
  obtain ⟨-,file,recovery,there,-,recovered,size,-,-⟩ := verify_ok verified
  obtain ⟨other,again,rfl⟩ := recovers file there
  rw [size]
  exact live_size_le_file again

theorem compact_copy_size {io : CopyIo} {self : Store} {destination : Path} {disk left : Disk} {report : CompactionReport}
    (done : compact_copy_to io self destination disk = .ok report left) :
    (∃ file, disk self.path = some file ∧ report.source_bytes = file.length) ∧ liveSize self.state ≤ report.compacted_bytes := by
  obtain ⟨file,is,rewritten⟩ := compact_copy_ok done
  unfold compact_copy_to at done
  split at done
  · cases done
  rw [get_bind] at done
  split at done
  · cases done
  obtain ⟨-,done⟩ := on_path_bind_ok.mp done
  rw [get_bind] at done
  obtain ⟨source,found,done⟩ := lift_bind_ok.mp done
  obtain ⟨_,middle,-,done⟩ := bind_ok.mp done
  obtain ⟨verification,checked,verified,ends⟩ := bind_ok.mp done
  have same := (verify_ok verified).1
  split at ends
  · obtain ⟨_,_,-,thrown⟩ := bind_ok.mp ends
    cases thrown
  cases ends
  constructor
  · exact ⟨source,find_ok.mp (mapError_eq_ok.mp found),rfl⟩
  · apply verified_size verified
    intro written there
    rw [← same,is,write_same] at there
    cases there
    exact rewritten.recovers

omit [Hashes] in
theorem backup_size {io : GenerationIo} {self : Store} {destination : Path} {disk left : Disk} {bytes : Nat}
    (done : backup_to io self destination disk = .ok bytes left) : bytes = self.file.length := by
  unfold backup_to at done
  obtain ⟨-,done⟩ := on_path_bind_ok.mp done
  split at done
  · cases done
  rw [get_bind] at done
  obtain ⟨_,_,-,done⟩ := bind_ok.mp done
  obtain ⟨-,done⟩ := on_path_bind_ok.mp done
  obtain ⟨-,done⟩ := on_path_bind_ok.mp done
  obtain ⟨-,done⟩ := on_path_bind_ok.mp done
  cases fails : io.backup .copy with
  | some error =>
    rw [fails] at done
    cases done
  | none =>
    rw [fails] at done
    dsimp only at done
    rw [modify_bind] at done
    obtain ⟨-,done⟩ := on_path_bind_ok.mp done
    cases done
    rfl

theorem build_generation_size {io : GenerationIo} {self : Store} {destination image : Path} {bytes : Nat} {disk left : Disk}
    {report : GenerationReport} (source : disk image = some self.file) (free : disk destination = some [])
    (done : build_generation io self destination image bytes disk = .ok report left) :
    report.source_bytes = bytes ∧ liveSize self.state ≤ report.generation_bytes := by
  obtain ⟨file,rs,marker,is,generated⟩ := build_generation_ok source free done
  unfold build_generation at done
  obtain ⟨_,_,-,done⟩ := bind_ok.mp done
  obtain ⟨_,_,-,done⟩ := bind_ok.mp done
  obtain ⟨_,_,-,done⟩ := bind_ok.mp done
  obtain ⟨_,-,done⟩ := lift_bind_ok.mp done
  obtain ⟨_,-,done⟩ := lift_bind_ok.mp done
  obtain ⟨_,-,done⟩ := lift_bind_ok.mp done
  obtain ⟨_,_,-,done⟩ := bind_ok.mp done
  obtain ⟨verification,verifiedDisk,verified,done⟩ := bind_ok.mp done
  have same := (verify_ok (rethrow_ok.mp verified)).1
  split at done
  · cases done
  cases done
  refine ⟨rfl,verified_size (rethrow_ok.mp verified) ?_⟩
  intro written there
  rw [← same,is,write_same] at there
  cases there
  exact generated.recovers

theorem compact_generation_size {io : GenerationIo} {self : Store} {destination : Path} {disk left : Disk} {report : GenerationReport}
    (done : compact_generation_to io self destination disk = .ok report left) :
    report.source_bytes = self.file.length ∧ liveSize self.state ≤ report.generation_bytes := by
  unfold compact_generation_to at done
  obtain ⟨_,flushed,flushes,done⟩ := bind_ok.mp done
  rw [(sync_ok.mp (rethrow_ok.mp flushes)).2] at done
  split at done
  · cases done
  dsimp only at done
  obtain ⟨_,reserved,reserves,done⟩ := bind_ok.mp done
  obtain ⟨-,there⟩ := create_new_ok reserves
  obtain ⟨image,imaged,images,done⟩ := bind_ok.mp done
  obtain ⟨unused,beside⟩ := reserve_source_image_ok (orElseDo_ok.mp images)
  have distinct : image ≠ destination := by
    rintro rfl
    rw [there,write_same] at unused
    cases unused
  obtain ⟨bytes,backed,backs,done⟩ := bind_ok.mp done
  have copied := backup_ok (rethrow_ok.mp (orElseDo_ok.mp backs))
  rw [beside,there,write_write] at copied
  obtain ⟨built,builtDisk,builds,done⟩ := bind_ok.mp done
  obtain ⟨measured,size⟩ := build_generation_size (by rw [copied,write_same])
    (by rw [copied,write_other _ (Ne.symm distinct),write_same]) (orElseDo_ok.mp builds)
  obtain ⟨_,discarded,-,done⟩ := bind_ok.mp done
  cases done
  exact ⟨measured.trans (backup_size (rethrow_ok.mp (orElseDo_ok.mp backs))),size⟩

/-- The file of the store is at its path, and has the length that a report is told. -/
structure Measured (store : Store) (around : Surroundings) (disk : Disk) : Prop where
  present : disk store.path = some store.file
  length : ∀ bytes, around.metadata = .ok bytes → bytes.toNat = store.file.length

/-- What a rewrite of either kind reclaims is at most the backlog that a report
    on the same store gives. No rewritten file is smaller than the live bytes. -/
theorem backlog_bounds_rewrites {self : Store} {around : Surroundings} {health : HealthReport} {disk : Disk}
    (measured : Measured self around disk) (reported : self.health_report around = .ok health) :
    (∀ io destination report left, compact_copy_to io self destination disk = .ok report left →
      report.bytes_reclaimed ≤ health.compaction_backlog_bytes.toNat ∧ liveSize self.state ≤ report.compacted_bytes) ∧
    ∀ io destination report left, compact_generation_to io self destination disk = .ok report left →
      report.bytes_reclaimed ≤ health.compaction_backlog_bytes.toNat ∧ liveSize self.state ≤ report.generation_bytes := by
  obtain ⟨file_bytes,metadata,backlog⟩ := backlog_size reported
  have length := measured.length file_bytes metadata
  constructor
  · intro io destination report left done
    obtain ⟨⟨file,there,source⟩,size⟩ := compact_copy_size done
    rw [measured.present] at there
    cases there
    refine ⟨?_,size⟩
    unfold CompactionReport.bytes_reclaimed
    omega
  · intro io destination report left done
    obtain ⟨source,size⟩ := compact_generation_size done
    refine ⟨?_,size⟩
    unfold GenerationReport.bytes_reclaimed
    omega

end

/-- Told only the length of the file of a store. -/
def measuring (store : Store) : Surroundings := ⟨.ok (.ofNat store.file.length),0,0,0,0⟩

set_option maxRecDepth 20000 in
/-- After three deletes both rewrites reclaim something. -/
theorem deletes_reclaimed : ∃ source health report left generation made,
    source.health_report (measuring source) = .ok health ∧
    @compact_copy_to crates calmCopy source ["b.vstore"] (diskOf source) = .ok report left ∧
    @compact_generation_to crates calmGeneration source ["c.vstore"] (diskOf source) = .ok generation made ∧
    0 < report.bytes_reclaimed ∧ report.bytes_reclaimed ≤ health.compaction_backlog_bytes.toNat ∧
    0 < generation.bytes_reclaimed ∧ generation.bytes_reclaimed ≤ health.compaction_backlog_bytes.toNat := by
  have evaluated : passes (@open_with_options crates calm ["a.vstore"] .default []) (fun store _ =>
        let source := @usedStore crates store (deleteActions [107] ++ deleteActions [108] ++ deleteActions [109])
        (source.health_report (measuring source)).toOption.any (fun _ =>
          passes (@compact_copy_to crates calmCopy source ["b.vstore"] (diskOf source)) (fun report _ =>
            passes (@compact_generation_to crates calmGeneration source ["c.vstore"] (diskOf source)) (fun generation _ =>
              decide (source.file.length < 2 ^ 64 ∧ 0 < report.bytes_reclaimed ∧ 0 < generation.bytes_reclaimed))))) = true := by
    rw [crates_eq_quick]
    decide +kernel
  obtain ⟨store,-,opened,evaluated⟩ := passes_iff.mp evaluated
  obtain ⟨health,reported,evaluated⟩ := any_ok_iff.mp evaluated
  obtain ⟨report,left,copied,evaluated⟩ := passes_iff.mp evaluated
  obtain ⟨generation,made,generated,evaluated⟩ := passes_iff.mp evaluated
  obtain ⟨short,first,second⟩ := of_decide_eq_true evaluated
  refine ⟨_,health,report,left,generation,made,reported,copied,generated,first,?_,second,?_⟩
  · refine ((@backlog_bounds_rewrites crates _ _ _ _ ⟨write_same _ _ _,?_⟩ reported).1 _ _ _ _ copied).1
    intro bytes told
    cases told
    exact UInt64.toNat_ofNat_of_lt' short
  · refine ((@backlog_bounds_rewrites crates _ _ _ _ ⟨write_same _ _ _,?_⟩ reported).2 _ _ _ _ generated).1
    intro bytes told
    cases told
    exact UInt64.toNat_ofNat_of_lt' short

end VoodooStore
