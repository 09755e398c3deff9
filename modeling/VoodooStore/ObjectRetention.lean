import VoodooStore.ObjectRuns
import VoodooStore.Room

/-!
# Retention

`purge_expired_objects` reads the recorded expiry of every object before it
removes any. `put_object_with_metadata` stores an expiry as it is given, so one
object with an expiry that is no number stops every purge. Where all of them can
be read, a purge removes as many expired, unreferenced objects as it is asked to
(`purge_progresses_iff`).
-/
namespace VoodooStore
open Effects Objects
set_option linter.unusedSimpArgs false

/-- Whether the object is recorded to expire no later than now. -/
def expired (self : Store) (now_unix : Int64) (id : ObjectId) : Bool :=
  match (do recorded_expiry (← self.metadata_of id)) with
  | .ok (some expiry) => expiry ≤ now_unix
  | _ => false

theorem expired_iff {self : Store} {now_unix : Int64} {id : ObjectId} : expired self now_unix id = true ↔ Expired self now_unix id := by
  unfold expired Expired
  cases read : self.metadata_of id with
  | error e => simp
  | ok metadata =>
    rw [ok_bind]
    cases recorded : recorded_expiry metadata with
    | error e => simp [recorded]
    | ok expires =>
      cases expires with
      | none => simp [recorded]
      | some expiry => simp [recorded]

/-- The object is there, has expired, and no reference names it. -/
structure Due (store : Store) (now_unix : Int64) (id : ObjectId) : Prop where
  stored : Exists store.state id
  expired : Expired store now_unix id
  unnamed : ∀ key, starts_with key REF_PREFIX = true → store.state[key]? ≠ some id.val

/-- What the metadata record of an expiry, if anything, can be read. -/
def ExpiryReads (store : Store) (id : ObjectId) : Prop :=
  ∀ metadata, store.metadata_of id = .ok metadata → ∃ expiry, recorded_expiry metadata = .ok expiry

/-- So many objects are removed if there are so many of them; no limit is given as zero. -/
def capped (limit count : Nat) : Nat := if limit = 0 then count else min limit count

theorem capped_le (limit count : Nat) : capped limit count ≤ count := by
  unfold capped
  split <;> omega

/-- The entries are those of objects, and their metadata can be decoded. -/
def ObjectEntries (self : Store) (objects : List (Bytes × Bytes)) : Prop :=
  ∀ entry ∈ objects, ∃ id metadata, entry.1 = Objects.object_key id ∧ self.metadata_of id = .ok metadata

/-- The expired objects among the entries that are not referenced. -/
def due (self : Store) (references : List ObjectId) (now_unix : Int64) (objects : List (Bytes × Bytes)) : List ObjectId :=
  objects.filterMap (fun entry =>
    (decode_object_key entry.1).toOption.filter (fun id => decide (id ∉ references) && expired self now_unix id))

theorem due_cons {self : Store} {references : List ObjectId} {now_unix : Int64} {id : ObjectId} {value : Bytes}
    {objects : List (Bytes × Bytes)} : due self references now_unix ((Objects.object_key id,value) :: objects) =
      if id ∉ references ∧ expired self now_unix id = true then id :: due self references now_unix objects
      else due self references now_unix objects := by
  unfold due
  rw [List.filterMap_cons,decode_object_key_ok.mpr rfl]
  by_cases here : id ∉ references ∧ expired self now_unix id = true
  · rw [if_pos here]
    simp [Except.toOption,Option.filter,here.1,here.2]
  · rw [if_neg here]
    have : (decide (id ∉ references) && expired self now_unix id) = false := by
      rw [Bool.eq_false_iff]
      simpa using here
    simp only [Except.toOption,Option.filter,this]
    rfl

theorem mem_due {self : Store} {references : List ObjectId} {now_unix : Int64} {id : ObjectId} {objects : List (Bytes × Bytes)} :
    id ∈ due self references now_unix objects ↔
      (∃ value, (Objects.object_key id,value) ∈ objects) ∧ id ∉ references ∧ Expired self now_unix id := by
  unfold due
  rw [List.mem_filterMap]
  constructor
  · rintro ⟨⟨key,value⟩,member,found⟩
    cases decoded : decode_object_key key with
    | error e =>
      rw [decoded] at found
      cases found
    | ok other =>
      rw [decoded] at found
      obtain ⟨same,holds⟩ := Option.filter_eq_some_iff.mp found
      cases same
      rw [Bool.and_eq_true,decide_eq_true_eq,expired_iff] at holds
      obtain rfl := decode_object_key_ok.mp decoded
      exact ⟨⟨value,member⟩,holds⟩
  · rintro ⟨⟨value,member⟩,orphan,past⟩
    refine ⟨_,member,?_⟩
    dsimp only
    rw [decode_object_key_ok.mpr rfl]
    refine Option.filter_eq_some_iff.mpr ⟨rfl,?_⟩
    rw [Bool.and_eq_true,decide_eq_true_eq,expired_iff]
    exact ⟨orphan,past⟩

theorem due_keys {self : Store} {references : List ObjectId} {now_unix : Int64} {objects : List (Bytes × Bytes)}
    (entries : ObjectEntries self objects) :
    ((due self references now_unix objects).map Objects.object_key).Sublist (objects.map Prod.fst) := by
  induction objects with
  | nil => simp [due]
  | cons entry objects ih =>
    obtain ⟨key,value⟩ := entry
    obtain ⟨id,-,rfl,-⟩ := entries _ (List.mem_cons_self ..)
    have later := ih (fun other member => entries other (List.mem_cons_of_mem _ member))
    rw [due_cons]
    by_cases here : id ∉ references ∧ expired self now_unix id = true
    · rw [if_pos here]
      exact later.cons_cons _
    · rw [if_neg here]
      exact later.trans (List.sublist_cons_self _ _)

theorem recorded_expiry_error {metadata : MetadataEntries} {e : ObjectError} (failed : recorded_expiry metadata = .error e) :
    e = .CorruptMetadata := by
  unfold recorded_expiry at failed
  split at failed
  · cases failed
  · rename_i value _
    cases parsed : (from_utf8 value).bind parse_i64 with
    | none =>
      rw [parsed] at failed
      cases failed
      rfl
    | some expiry =>
      rw [parsed] at failed
      cases failed

/-- One step of the loop, at an object whose expiry can be read. -/
theorem sweep_step {self : Store} {references : List ObjectId} {now_unix : Int64} {limit : Nat} {start : Sweep} {id : ObjectId}
    {value : Bytes} {objects : List (Bytes × Bytes)} {metadata : MetadataEntries} (read : self.metadata_of id = .ok metadata)
    (reads : ExpiryReads self id) : ∃ middle : Sweep,
      sweep_objects self references now_unix limit start ((Objects.object_key id,value) :: objects) =
        sweep_objects self references now_unix limit middle objects ∧
      middle.to_remove = start.to_remove ++
        if (id ∉ references ∧ expired self now_unix id = true) ∧ (limit = 0 ∨ start.to_remove.length < limit)
        then [(Objects.object_key id,id)] else [] := by
  obtain ⟨expires,recorded⟩ := reads metadata read
  have isExpired : expired self now_unix id = expires.any (fun expiry => decide (expiry ≤ now_unix)) := by
    unfold expired
    rw [read,ok_bind,recorded]
    cases expires <;> rfl
  rw [sweep_objects,decode_object_key_ok.mpr rfl,ok_bind,read,ok_bind,recorded,ok_bind,isExpired]
  cases expires with
  | none => exact ⟨start,rfl,by simp⟩
  | some expiry =>
    dsimp only
    by_cases later : expiry > now_unix
    · rw [if_pos later]
      refine ⟨start,rfl,?_⟩
      rw [if_neg (by simp [Int64.not_le.mpr later]),List.append_nil]
    rw [if_neg later]
    by_cases named : id ∈ references
    · rw [if_pos named]
      refine ⟨_,rfl,?_⟩
      rw [if_neg (by simp [named]),List.append_nil]
    rw [if_neg named]
    by_cases room : limit = 0 ∨ start.to_remove.length < limit
    · rw [if_pos room]
      refine ⟨_,rfl,?_⟩
      rw [if_pos ⟨⟨named,by simpa using Int64.not_lt.mp later⟩,room⟩]
    · rw [if_neg room]
      refine ⟨_,rfl,?_⟩
      rw [if_neg (fun both => room both.2),List.append_nil]

/-- Where every expiry can be read, the sweep finds as many objects as it is asked to. -/
theorem sweep_readable {self : Store} {references : List ObjectId} {now_unix : Int64} {limit : Nat} {start : Sweep}
    {objects : List (Bytes × Bytes)} (entries : ObjectEntries self objects)
    (reads : ∀ id value, (Objects.object_key id,value) ∈ objects → ExpiryReads self id)
    (below : limit ≠ 0 → start.to_remove.length ≤ limit) :
    ∃ sweep, sweep_objects self references now_unix limit start objects = .ok sweep ∧
      sweep.to_remove.length = capped limit (start.to_remove.length + (due self references now_unix objects).length) := by
  induction objects generalizing start with
  | nil =>
    refine ⟨start,rfl,?_⟩
    unfold capped
    split
    · rfl
    · rename_i limited
      have := below limited
      simp only [due,List.filterMap_nil,List.length_nil]
      omega
  | cons entry objects ih =>
    obtain ⟨key,value⟩ := entry
    obtain ⟨id,metadata,rfl,read⟩ := entries _ (List.mem_cons_self ..)
    obtain ⟨middle,step,removes⟩ := @sweep_step self references now_unix limit start id value objects metadata read
      (reads id value (List.mem_cons_self ..))
    have size := congrArg List.length removes
    rw [List.length_append] at size
    have still : limit ≠ 0 → middle.to_remove.length ≤ limit := by
      intro limited
      have := below limited
      split at size
      · rename_i both
        have := both.2.resolve_left limited
        simp only [List.length_cons,List.length_nil] at size
        omega
      · simp only [List.length_nil] at size
        omega
    obtain ⟨sweep,swept,counted⟩ := ih (fun other member => entries other (List.mem_cons_of_mem _ member))
      (fun other value member => reads other value (List.mem_cons_of_mem _ member)) still
    refine ⟨sweep,step.trans swept,?_⟩
    rw [counted,due_cons]
    unfold capped
    by_cases here : id ∉ references ∧ expired self now_unix id = true
    · rw [if_pos here,List.length_cons]
      by_cases unlimited : limit = 0
      · rw [if_pos ⟨here,.inl unlimited⟩] at size
        simp only [List.length_cons,List.length_nil] at size
        rw [if_pos unlimited,if_pos unlimited]
        omega
      · rw [if_neg unlimited,if_neg unlimited]
        by_cases room : start.to_remove.length < limit
        · rw [if_pos ⟨here,.inr room⟩] at size
          simp only [List.length_cons,List.length_nil] at size
          omega
        · rw [if_neg (fun both => room (both.2.resolve_left unlimited))] at size
          simp only [List.length_nil] at size
          omega
    · rw [if_neg here]
      rw [if_neg (fun both => here both.1)] at size
      simp only [List.length_nil] at size
      rw [size,Nat.add_zero]

/-- One expiry that cannot be read ends the sweep. -/
theorem sweep_unreadable {self : Store} {references : List ObjectId} {now_unix : Int64} {limit : Nat} {start : Sweep}
    {objects : List (Bytes × Bytes)} (entries : ObjectEntries self objects) {bad : ObjectId} {content : Bytes}
    (member : (Objects.object_key bad,content) ∈ objects) (unreadable : ¬ ExpiryReads self bad) :
    sweep_objects self references now_unix limit start objects = .error .CorruptMetadata := by
  induction objects generalizing start with
  | nil => cases member
  | cons entry objects ih =>
    obtain ⟨key,value⟩ := entry
    obtain ⟨id,metadata,rfl,read⟩ := entries _ (List.mem_cons_self ..)
    by_cases reads : ExpiryReads self id
    · obtain ⟨middle,step,-⟩ := @sweep_step self references now_unix limit start id value objects metadata read reads
      have later : (Objects.object_key bad,content) ∈ objects := by
        rcases List.mem_cons.mp member with same | later
        · cases object_key_injective (Prod.mk.inj same).1
          exact absurd reads unreadable
        · exact later
      rw [step]
      exact ih (fun other inside => entries other (List.mem_cons_of_mem _ inside)) later
    · rw [sweep_objects,decode_object_key_ok.mpr rfl,ok_bind,read,ok_bind]
      cases recorded : recorded_expiry metadata with
      | ok expiry =>
        refine absurd ?_ reads
        intro other is
        rw [read] at is
        cases is
        exact ⟨expiry,recorded⟩
      | error e =>
        rw [recorded_expiry_error recorded]
        rfl

/-- Where the entries name objects, the objects they name are collected. -/
theorem collects_all {start : List ObjectId} {entries : List (Bytes × Bytes)} (named : ∀ entry ∈ entries, ∃ id : ObjectId, entry.2 = id.val) :
    ∃ references, collect_references start entries = .ok references ∧
      ∀ id, id ∈ references ↔ id ∈ start ∨ ∃ entry ∈ entries, entry.2 = id.val := by
  induction entries generalizing start with
  | nil => exact ⟨start,rfl,by simp⟩
  | cons entry entries ih =>
    obtain ⟨key,value⟩ := entry
    obtain ⟨id,is⟩ := named _ (List.mem_cons_self ..)
    obtain ⟨references,collected,members⟩ := @ih (start.insert id) (fun other member => named other (List.mem_cons_of_mem _ member))
    refine ⟨references,?_,?_⟩
    · rw [collect_references,object_id_try_from.mpr is]
      exact collected
    · intro other
      rw [members,List.mem_insert_iff]
      dsimp only at is
      subst is
      constructor
      · rintro ((rfl | inside) | ⟨entry,inside,same⟩)
        · exact .inr ⟨_,List.mem_cons_self ..,rfl⟩
        · exact .inl inside
        · exact .inr ⟨entry,List.mem_cons_of_mem _ inside,same⟩
      · rintro (inside | ⟨entry,inside,same⟩)
        · exact .inl (.inr inside)
        · rcases List.mem_cons.mp inside with rfl | later
          · exact .inl (.inl (Subtype.ext same.symm))
          · exact .inr ⟨entry,later,same⟩

/-- What a purge deletes, in order. -/
def deletions (ids : List ObjectId) : List Operation := ids.flatMap (fun id => [.Delete (Objects.object_key id),.Delete (metadata_key id)])

theorem deletions_length (ids : List ObjectId) : (deletions ids).length = 2 * ids.length := by
  induction ids with
  | nil => rfl
  | cons id ids ih =>
    rw [deletions,List.flatMap_cons,List.length_append,← deletions,ih,List.length_cons]
    simp only [List.length_cons,List.length_nil]
    omega

theorem deletions_storable {ids : List ObjectId} : ∀ operation ∈ deletions ids, operation.Storable := by
  intro operation member
  obtain ⟨id,-,inside⟩ := List.mem_flatMap.mp member
  have size := id.property
  simp only [List.mem_cons,List.not_mem_nil,or_false] at inside
  rcases inside with rfl | rfl
  · simp [Operation.Storable,Objects.object_key,OBJECT_PREFIX,INTERNAL_KEY_PREFIX,ascii,size]
  · simp [Operation.Storable,metadata_key,METADATA_PREFIX,INTERNAL_KEY_PREFIX,ascii,size]

section
variable [Hashes]

theorem Linked.metadata_of {store : Store} (linked : Linked store.state) (id : ObjectId) : ∃ metadata, store.metadata_of id = .ok metadata := by
  cases found : store.state[metadata_key id]? with
  | none => exact ⟨[],metadata_of_none found⟩
  | some value =>
    obtain ⟨_,metadata,-,normal,spelled,-⟩ := linked.metadata _ value (metadata_key_own id) found
    exact ⟨metadata,metadata_of_some normal spelled found⟩

theorem Linked.entries {store : Store} (linked : Linked store.state) : ObjectEntries store (scan store.state OBJECT_PREFIX) := by
  intro entry member
  obtain ⟨own,found⟩ := mem_scan.mp member
  obtain ⟨content,-,same⟩ := linked.objects _ _ own found
  obtain ⟨metadata,read⟩ := linked.metadata_of (object_id content)
  exact ⟨object_id content,metadata,(Prod.mk.inj same).1.symm,read⟩

/-- The references that a sweep collects, and the objects that are due by them. -/
theorem Linked.collects {store : Store} (linked : Linked store.state) (now_unix : Int64) :
    ∃ references, collect_references [] (scan store.state REF_PREFIX) = .ok references ∧
      (due store references now_unix (scan store.state OBJECT_PREFIX)).Nodup ∧
      ∀ id, id ∈ due store references now_unix (scan store.state OBJECT_PREFIX) ↔ Due store now_unix id := by
  obtain ⟨references,collected,members⟩ := @collects_all [] (scan store.state REF_PREFIX) (by
    intro entry member
    obtain ⟨own,found⟩ := mem_scan.mp member
    obtain ⟨id,is,-⟩ := linked.references _ _ own found
    exact ⟨id,is⟩)
  refine ⟨references,collected,?_,?_⟩
  · exact ((due_keys linked.entries).nodup (scan_keys_nodup _ _)).of_map
  · intro id
    rw [mem_due,members]
    constructor
    · rintro ⟨⟨value,inside⟩,unnamed,past⟩
      refine ⟨⟨value,(mem_scan.mp inside).2⟩,past,?_⟩
      intro key own found
      exact unnamed (.inr ⟨(key,id.val),mem_scan.mpr ⟨own,found⟩,rfl⟩)
    · rintro ⟨⟨value,found⟩,past,unnamed⟩
      refine ⟨⟨value,mem_scan.mpr ⟨object_key_own id,found⟩⟩,?_,past⟩
      rintro (impossible | ⟨⟨key,value⟩,inside,rfl⟩)
      · cases impossible
      · exact unnamed key (mem_scan.mp inside).1 (mem_scan.mp inside).2

/-! ### The transaction of a purge -/

theorem remove_swept_error {io : Io} {objects : List (Bytes × ObjectId)} {tx u : Transaction} {e : ObjectError}
    (failed : remove_swept io objects tx = .error e u) : ∃ error, e = .Store error := by
  induction objects generalizing tx with
  | nil => cases failed
  | cons object objects ih =>
    rcases bind_error.mp failed with first | ⟨_,_,-,rest⟩
    · rcases bind_error.mp first with first | ⟨_,_,-,second⟩
      · obtain ⟨error,-,is⟩ := rethrow_error.mp first
        exact ⟨error,is⟩
      · obtain ⟨error,-,is⟩ := rethrow_error.mp second
        exact ⟨error,is⟩
    · exact ih rest

theorem within_swept_error {io : Io} {objects : List (Bytes × ObjectId)} {store t : Store} {e : ObjectError}
    (failed : within .Store io (remove_swept io objects) store = .error e t) : ∃ error, e = .Store error := by
  cases begun : begin_tx store with
  | error error =>
    rw [within_unbegun begun] at failed
    cases failed
    exact ⟨error,rfl⟩
  | ok tx =>
    rw [within_begun begun] at failed
    cases result : (do let a ← remove_swept io objects; rethrow .Store (commit io); return a : EStateM ObjectError Transaction Unit) tx with
    | ok x u =>
      rw [result] at failed
      cases failed
    | error e' u =>
      rw [result] at failed
      cases failed
      rcases bind_error.mp result with body | ⟨_,_,-,later⟩
      · exact remove_swept_error body
      · rcases bind_error.mp later with uncommitted | ⟨_,_,-,impossible⟩
        · obtain ⟨error,-,is⟩ := rethrow_error.mp uncommitted
          exact ⟨error,is⟩
        · cases impossible

theorem remove_object_succeeds {io : Io} {tx : Transaction} (id : ObjectId) (faultless : io.Faultless) (room : CanStage tx 2) :
    ∃ u, remove_object io (Objects.object_key id) id tx = .ok () u ∧
      Advanced tx u [.Delete (Objects.object_key id),.Delete (metadata_key id)] := by
  have size := id.property
  obtain ⟨middle,first,one⟩ := @delete_succeeds _ io tx (Objects.object_key id) faultless
    (by simp [Objects.object_key,OBJECT_PREFIX,INTERNAL_KEY_PREFIX,ascii,size]) ⟨room.unlimited,room.unfinished,by have := room.room; omega⟩
  obtain ⟨u,second,other⟩ := @delete_succeeds _ io middle (metadata_key id) faultless
    (by simp [metadata_key,METADATA_PREFIX,INTERNAL_KEY_PREFIX,ascii,size]) (CanStage.after room one)
  refine ⟨u,?_,one.trans other⟩
  rw [remove_object,bind_of_ok (rethrow_ok.mpr first)]
  exact rethrow_ok.mpr second

theorem remove_swept_succeeds {io : Io} {tx : Transaction} {ids : List ObjectId} (faultless : io.Faultless)
    (room : CanStage tx (deletions ids).length) :
    ∃ u, remove_swept io (ids.map (fun id => (Objects.object_key id,id))) tx = .ok () u ∧ Advanced tx u (deletions ids) := by
  induction ids generalizing tx with
  | nil => exact ⟨tx,rfl,.refl tx⟩
  | cons id ids ih =>
    have split : deletions (id :: ids) = [.Delete (Objects.object_key id),.Delete (metadata_key id)] ++ deletions ids := rfl
    rw [split,List.length_append] at room
    obtain ⟨middle,first,one⟩ := remove_object_succeeds id faultless
      ⟨room.unlimited,room.unfinished,by have := room.room; simp only [List.length_cons,List.length_nil] at this; omega⟩
    obtain ⟨u,rest,later⟩ := ih (room.after one)
    refine ⟨u,?_,one.trans later⟩
    rw [List.map_cons,remove_swept,bind_of_ok first]
    exact rest

/-! ### Purges -/

/-- A purge is not stopped by what is stored; it removes as many expired,
    unreferenced objects as it is asked to, and with room it succeeds. -/
structure Progresses (store : Store) (now_unix : Int64) (limit : Nat) : Prop where
  uncorrupted : ∀ io, returned (purge_expired_objects io now_unix limit) store ≠ .error .CorruptMetadata
  removes : ∀ io report t, purge_expired_objects io now_unix limit store = .ok report t → ∃ all ids : List ObjectId,
    all.Nodup ∧ (∀ id, id ∈ all ↔ Due store now_unix id) ∧ (∀ id ∈ ids, id ∈ all) ∧ ids.length = capped limit all.length ∧
    report.removed = ids.length ∧ Collects store t ids
  succeeds : ∀ io (all : List ObjectId), io.Faultless → all.Nodup → (∀ id, id ∈ all ↔ Due store now_unix id) →
    2 * all.length < 2 ^ 32 → Roomy store 1 (4 * all.length + 1) → ∃ report t, purge_expired_objects io now_unix limit store = .ok report t

/-- What a purge does where every expiry can be read. -/
theorem purge_readable {store : Store} (linked : Linked store.state) (reads : ∀ id, Exists store.state id → ExpiryReads store id)
    (now_unix : Int64) (limit : Nat) : ∃ all ids : List ObjectId, all.Nodup ∧ (∀ id, id ∈ all ↔ Due store now_unix id) ∧
      ids.length = capped limit all.length ∧ ∀ io, ∃ report : ObjectRetentionReport, report.removed = ids.length ∧
        purge_expired_objects io now_unix limit store = (if ids = [] then pure report else do
          within .Store io (remove_swept io (ids.map (fun id => (Objects.object_key id,id))))
          return report : EStateM ObjectError Store ObjectRetentionReport) store := by
  obtain ⟨references,collected,distinct,members⟩ := linked.collects now_unix
  obtain ⟨sweep,swept,counted⟩ := @sweep_readable store references now_unix limit ⟨0,0,[]⟩ _ linked.entries
    (fun id value member => reads id ⟨value,(mem_scan.mp member).2⟩) (by simp)
  obtain ⟨ids,removes,-,-,-⟩ := sweep_objects_ok swept
  rw [List.nil_append] at removes
  have size : sweep.to_remove.length = ids.length := by rw [removes,List.length_map]
  rw [size,List.length_nil,Nat.zero_add] at counted
  refine ⟨_,ids,distinct,members,counted,?_⟩
  intro io
  refine ⟨⟨(scan store.state OBJECT_PREFIX).length,sweep.expired,sweep.referenced,ids.length⟩,rfl,?_⟩
  unfold purge_expired_objects
  rw [get_bind,scan_prefix_eq,scan_prefix_eq,lift_bind_run,collected]
  dsimp only
  rw [lift_bind_run,swept]
  dsimp only
  rw [removes]
  by_cases none_due : ids = []
  · rw [if_pos none_due,none_due]
    rfl
  · rw [if_neg none_due,if_pos (by simpa using none_due),List.length_map]

/-- One object whose expiry cannot be read stops every purge. -/
theorem purge_unreadable {store : Store} (linked : Linked store.state) {id : ObjectId} (there : Exists store.state id)
    (unreadable : ¬ ExpiryReads store id) (io : Io) (now_unix : Int64) (limit : Nat) :
    purge_expired_objects io now_unix limit store = .error .CorruptMetadata store := by
  obtain ⟨references,collected,-,-⟩ := linked.collects now_unix
  obtain ⟨value,found⟩ := there
  unfold purge_expired_objects
  rw [get_bind,scan_prefix_eq,scan_prefix_eq,lift_bind_run,collected]
  dsimp only
  rw [lift_bind_run,sweep_unreadable linked.entries (mem_scan.mpr ⟨object_key_own id,found⟩) unreadable]

theorem Progresses.of_readable {store : Store} (linked : Linked store.state) (reads : ∀ id, Exists store.state id → ExpiryReads store id)
    (now_unix : Int64) (limit : Nat) : Progresses store now_unix limit := by
  obtain ⟨all,ids,distinct,members,counted,purges⟩ := purge_readable linked reads now_unix limit
  refine ⟨?_,?_,?_⟩
  · intro io failed
    have failed := returned_error failed
    obtain ⟨report,-,same⟩ := purges io
    rw [same] at failed
    by_cases none_due : ids = []
    · rw [if_pos none_due] at failed
      cases failed
    · rw [if_neg none_due] at failed
      rcases bind_error.mp failed with first | ⟨_,_,-,impossible⟩
      · obtain ⟨error,is⟩ := within_swept_error first
        cases is
      · cases impossible
  · intro io report t done
    obtain ⟨taken_ids,taken,-,past,removed⟩ := purge_taken io now_unix limit store
    have leaves : after (purge_expired_objects io now_unix limit) store = t := by rw [after,done]
    have reports : returned (purge_expired_objects io now_unix limit) store = .ok report := by rw [returned,done]
    rw [leaves] at taken
    have size := removed report reports
    refine ⟨all,taken_ids,distinct,members,?_,?_,size,taken.collects linked⟩
    · intro id member
      exact (members id).mpr ⟨taken.stored id member,past id member,taken.unnamed id member⟩
    · obtain ⟨given,is,same⟩ := purges io
      have equal : report = given := by
        rw [same] at done
        by_cases none_due : ids = []
        · rw [if_pos none_due] at done
          cases done
          rfl
        · rw [if_neg none_due] at done
          obtain ⟨_,_,-,last⟩ := bind_ok.mp done
          cases last
          rfl
      rw [← size,equal,is,counted]
  · intro io other faultless nodup lists few roomy
    obtain ⟨report,-,same⟩ := purges io
    rw [same]
    by_cases none_due : ids = []
    · rw [if_pos none_due]
      exact ⟨report,store,rfl⟩
    · rw [if_neg none_due]
      have few_ids : ids.length ≤ other.length := by
        rw [counted,((List.perm_ext_iff_of_nodup distinct nodup).mpr (fun id => (members id).trans (lists id).symm)).length_eq]
        exact capped_le limit _
      have size := deletions_length ids
      obtain ⟨t,done,-⟩ := @within_succeeds _ _ _ ObjectError.Store io
        (remove_swept io (ids.map (fun id => (Objects.object_key id,id)))) store (deletions ids) () faultless deletions_storable (by omega) 0 0
        ⟨roomy.unlimited,roomy.tx_ids,by have := roomy.sequences; omega⟩ (fun tx _ room => remove_swept_succeeds faultless room)
      exact ⟨report,t,bind_ok.mpr ⟨(),t,done,rfl⟩⟩

/-- In every state reached from a new store: a purge progresses exactly if the
    recorded expiry of every stored object can be read. -/
theorem purge_progresses_iff {io : Io} {path : Path} {options : StoreOptions} {store : Store} {left : Bytes}
    (opened : open_with_options io path options [] = .ok store left) {moves : List (Move ObjectCall ObjectTxCall)}
    (along : (Play.mk (.Idle store) []).Along objects objectTerms moves) (now_unix : Int64) (limit : Nat) :
    let reached := (Play.steps objects ⟨.Idle store,[]⟩ moves).session.store
    Progresses reached now_unix limit ↔ ∀ id, Exists reached.state id → ExpiryReads reached id := by
  obtain ⟨-,-,linked,-⟩ := play_invariant objects_preserved ⟨linked_empty,by simp⟩ opened along
  intro reached
  constructor
  · intro progresses id there
    by_contra unreadable
    refine progresses.uncorrupted calm ?_
    rw [returned,purge_unreadable linked there unreadable]
  · intro reads
    exact Progresses.of_readable linked reads now_unix limit

end

/-- An object with an expiry, and a second one that is linked. -/
def storedAndLinked (expiry : Bytes) : List (Move ObjectCall ObjectTxCall) :=
  [.Call (.PutObjectWithMetadata calm calm [1] [(ascii "expires_at_unix",expiry)]),.Call (.PutObject calm [2]),
    .Call (.LinkObject calm [97] [98] (@object_id crates [2]))]

theorem stored_and_linked_along (expiry : Bytes) (store : Store) :
    @Play.Along crates _ _ _ _ (@objects crates) objectTerms (Play.mk (.Idle store) []) (storedAndLinked expiry) := by
  refine @along_of_fine crates _ _ _ _ _ objectTerms ObjectCall.Durable ObjectTxCall.Durable _
    (fun _ _ fine => fine) (fun _ _ fine => fine) (fun _ _ _ => trivial) ?_ _
  intro move member
  simp only [storedAndLinked,List.mem_cons,List.not_mem_nil,or_false] at member
  rcases member with rfl | rfl | rfl
  · exact ⟨calm_durable,calm_durable⟩
  · exact calm_durable
  · exact calm_durable

set_option maxRecDepth 20000 in
theorem timed_object_progresses : ∃ store left, @open_with_options crates calm ["a.vstore"] .default [] = .ok store left ∧
    @Progresses crates (@Play.steps crates _ _ _ _ (@objects crates) ⟨.Idle store,[]⟩ (storedAndLinked (ascii "5"))).session.store 5 1 := by
  obtain ⟨store,left,opened⟩ := @sound_opens crates calm [] ["a.vstore"] .default calm_faultless (.inl rfl)
  have evaluated : passes (@open_with_options crates calm ["a.vstore"] .default []) (fun store _ =>
        let reached := (@Play.steps crates _ _ _ _ (@objects crates) ⟨.Idle store,[]⟩ (storedAndLinked (ascii "5"))).session.store
        (Store.scan_prefix reached OBJECT_PREFIX).all (fun entry =>
          (do recorded_expiry (← reached.metadata_of (← decode_object_key entry.1))).toBool)) = true := by
    rw [crates_eq_quick]
    decide +kernel
  rw [opened,passes_ok] at evaluated
  refine ⟨store,left,opened,(@purge_progresses_iff crates _ _ _ _ _ opened _ (stored_and_linked_along _ store) 5 1).mpr ?_⟩
  rintro id ⟨value,found⟩ metadata read
  have here := List.all_eq_true.mp evaluated _ (mem_scan.mpr ⟨object_key_own id,found⟩)
  dsimp only at here
  rw [decode_object_key_ok.mpr rfl,ok_bind,read,ok_bind] at here
  cases recorded : recorded_expiry metadata with
  | ok expiry => exact ⟨expiry,rfl⟩
  | error e =>
    rw [recorded] at here
    cases here

set_option maxRecDepth 20000 in
/-- An expiry that is no number is stored, and every purge fails. -/
theorem untimed_object_stops_purge : ∃ store left, @open_with_options crates calm ["a.vstore"] .default [] = .ok store left ∧
    @Play.Along crates _ _ _ _ (@objects crates) objectTerms (Play.mk (.Idle store) []) (storedAndLinked (ascii "soon")) ∧
    ¬ @Progresses crates (@Play.steps crates _ _ _ _ (@objects crates) ⟨.Idle store,[]⟩ (storedAndLinked (ascii "soon"))).session.store 5 1 := by
  obtain ⟨store,left,opened⟩ := @sound_opens crates calm [] ["a.vstore"] .default calm_faultless (.inl rfl)
  have evaluated : passes (@open_with_options crates calm ["a.vstore"] .default []) (fun store _ =>
        let reached := (@Play.steps crates _ _ _ _ (@objects crates) ⟨.Idle store,[]⟩ (storedAndLinked (ascii "soon"))).session.store
        decide (@returned _ _ _ (@purge_expired_objects crates calm 5 1) reached = .error .CorruptMetadata)) = true := by
    rw [crates_eq_quick]
    decide +kernel
  rw [opened,passes_ok] at evaluated
  refine ⟨store,left,opened,stored_and_linked_along _ store,?_⟩
  intro progresses
  exact @Progresses.uncorrupted crates _ _ _ progresses calm (of_decide_eq_true evaluated)

end VoodooStore
