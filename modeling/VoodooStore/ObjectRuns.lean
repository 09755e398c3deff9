import VoodooStore.ObjectRecords

/-!
# References and collections

Whatever runs on objects, what is stored stays linked. So no reference dangles,
and a collector, which looks at the references alone, takes nothing away that a
reference stands for (`references_never_dangle`). It does not see a link whose
commit was not confirmed and that comes back (`unconfirmed_link_dangles`).
-/
namespace VoodooStore
open Effects Reading Objects
set_option linter.unusedSimpArgs false

/-! ## Calls -/

inductive ObjectFailure
  | Object (error : ObjectError)
  | Tx (error : DomainTransactionError)
  deriving DecidableEq

inductive ObjectCall
  | PutObject (io : Io) (content : Bytes)
  | PutObjectWithMetadata (io metadata_io : Io) (content : Bytes) (metadata : MetadataEntries)
  | LinkObject (io : Io) (ns name : Bytes) (id : ObjectId)
  | UnlinkObject (io : Io) (ns name : Bytes)
  | GcOrphanObjects (io : Io) (limit : Nat)
  | PurgeExpiredObjects (io : Io) (now_unix : Int64) (limit : Nat)

inductive ObjectTxCall
  | PutObject (io : Io) (content : Bytes)
  | LinkObject (io : Io) (ns name : Bytes) (id : ObjectId)
  | UnlinkObject (io : Io) (ns name : Bytes)

inductive ObjectReply
  | Stored (id : ObjectId)
  | Linked
  | Unlinked (was_there : Bool)
  | Collected (report : ObjectGcReport)
  | Purged (report : ObjectRetentionReport)

def ObjectCall.Durable : ObjectCall → Prop
  | .PutObject io _ => io.Durable
  | .PutObjectWithMetadata io metadata_io _ _ => io.Durable ∧ metadata_io.Durable
  | .LinkObject io _ _ _ => io.Durable
  | .UnlinkObject io _ _ => io.Durable
  | .GcOrphanObjects io _ => io.Durable
  | .PurgeExpiredObjects io _ _ => io.Durable

def ObjectTxCall.Durable : ObjectTxCall → Prop
  | .PutObject io _ => io.Durable
  | .LinkObject io _ _ _ => io.Durable
  | .UnlinkObject io _ _ => io.Durable

section
variable [Hashes]

def objects : Domain ObjectFailure ObjectCall ObjectTxCall ObjectReply where
  on_store
    | .PutObject io content => do return .Stored (← rethrow .Object (Store.put_object io content))
    | .PutObjectWithMetadata io metadata_io content metadata => do
      return .Stored (← rethrow .Object (Store.put_object_with_metadata io metadata_io content metadata))
    | .LinkObject io ns name id => do
      rethrow .Object (Store.link_object io ns name id)
      return .Linked
    | .UnlinkObject io ns name => do return .Unlinked (← rethrow .Object (Store.unlink_object io ns name))
    | .GcOrphanObjects io limit => do return .Collected (← rethrow .Object (gc_orphan_objects io limit))
    | .PurgeExpiredObjects io now_unix limit => do
      return .Purged (← rethrow .Object (purge_expired_objects io now_unix limit))
  on_tx
    | .PutObject io content => do return .Stored (← rethrow .Tx (put_object io content))
    | .LinkObject io ns name id => do
      rethrow .Tx (link_object io ns name id)
      return .Linked
    | .UnlinkObject io ns name => do return .Unlinked (← rethrow .Tx (unlink_object io ns name))

/-! ### On a store -/

/-- The object is there behind its own transaction, whatever becomes of its metadata. -/
theorem put_object_keeps (io metadata_io : Io) (content : Bytes) (metadata : MetadataEntries) :
    Keeps Linked (Store.put_object_with_metadata io metadata_io content metadata) := by
  intro store linked
  cases result : Store.put_object_with_metadata io metadata_io content metadata store with
  | ok id t =>
    show Linked t.state
    unfold Store.put_object_with_metadata at result
    obtain ⟨values,normalized,result⟩ := lift_bind_ok.mp result
    rw [get_bind] at result
    split at result
    · obtain ⟨encoded,spelled,result⟩ := lift_bind_ok.mp result
      obtain ⟨fits,rfl⟩ := object_encoded.mp spelled
      obtain ⟨_,middle,written,result⟩ := bind_ok.mp result
      have stored := put_alone_ok (rethrow_ok.mp written)
      have linked := (linked.put_object fits).same stored
      split at result
      · obtain ⟨encoded,spelled,result⟩ := lift_bind_ok.mp result
        obtain ⟨_,_,written,result⟩ := bind_ok.mp result
        cases result
        refine (linked.put_metadata (normalize_normal normalized) spelled ?_).same (put_alone_ok (rethrow_ok.mp written))
        refine ⟨spelledObject content,?_⟩
        rw [stored _ (object_apart (data_inside (object_key_own _))),get_insert,if_pos rfl]
      · cases result
        exact linked
    · cases result
      exact linked
  | error e t =>
    show Linked t.state
    unfold Store.put_object_with_metadata at result
    rcases lift_bind_error.mp result with ⟨-,rfl⟩ | ⟨values,normalized,result⟩
    · exact linked
    rw [get_bind] at result
    split at result
    · rcases lift_bind_error.mp result with ⟨-,rfl⟩ | ⟨encoded,spelled,result⟩
      · exact linked
      obtain ⟨fits,rfl⟩ := object_encoded.mp spelled
      rcases bind_error.mp result with failed | ⟨_,middle,written,result⟩
      · obtain ⟨_,failed,-⟩ := rethrow_error.mp failed
        rw [put_alone_error failed]
        exact linked
      have linked := (linked.put_object fits).same (put_alone_ok (rethrow_ok.mp written))
      split at result
      · rcases lift_bind_error.mp result with ⟨-,rfl⟩ | ⟨encoded,-,result⟩
        · exact linked
        rcases bind_error.mp result with failed | ⟨_,_,-,result⟩
        · obtain ⟨_,failed,-⟩ := rethrow_error.mp failed
          rw [put_alone_error failed]
          exact linked
        · cases result
      · cases result
    · cases result

theorem link_object_keeps (io : Io) (ns name : Bytes) (id : ObjectId) : Keeps Linked (Store.link_object io ns name id) := by
  intro store linked
  unfold Store.link_object
  rw [get_bind]
  cases found : store.get_object id with
  | error e => exact linked
  | ok content =>
    cases content with
    | none => exact linked
    | some content =>
      rw [bind_of_ok (lift_ok _ _)]
      simp only [Option.isNone_some,Bool.false_eq_true,if_false]
      cases made : Objects.reference_key ns name with
      | error e => exact linked
      | ok key =>
        obtain ⟨-,-,-,rfl⟩ := object_reference_key_ok.mp made
        rw [bind_of_ok (lift_ok _ _)]
        cases written : rethrow ObjectError.Store (put_alone io (refKey ns name) id.val) store with
        | ok x t => exact (linked.link ns name (get_object_some found)).same (put_alone_ok (rethrow_ok.mp written))
        | error e t =>
          obtain ⟨_,failed,-⟩ := rethrow_error.mp written
          show Linked t.state
          rw [put_alone_error failed]
          exact linked

theorem unlink_object_keeps (io : Io) (ns name : Bytes) : Keeps Linked (Store.unlink_object io ns name) := by
  intro store linked
  unfold Store.unlink_object
  cases made : Objects.reference_key ns name with
  | error e => exact linked
  | ok key =>
    obtain ⟨-,-,-,rfl⟩ := object_reference_key_ok.mp made
    rw [bind_of_ok (lift_ok _ _),get_bind]
    cases found : store.get (refKey ns name) with
    | none => exact linked
    | some value =>
      simp only [Option.isNone_some,Bool.false_eq_true,if_false]
      cases written : rethrow ObjectError.Store (delete_alone io (refKey ns name)) store with
      | ok x t =>
        rw [bind_of_ok written]
        exact (linked.unlink ns name).same (delete_alone_ok (rethrow_ok.mp written))
      | error e t =>
        rw [bind_of_error written]
        obtain ⟨_,failed,-⟩ := rethrow_error.mp written
        show Linked t.state
        rw [delete_alone_error failed]
        exact linked

theorem gc_keeps (io : Io) (limit : Nat) : Keeps Linked (gc_orphan_objects io limit) := by
  refine keeps_of_after (fun store linked => ?_)
  obtain ⟨ids,taken,-⟩ := gc_taken io limit store
  exact linked.taken taken

theorem purge_keeps (io : Io) (now_unix : Int64) (limit : Nat) : Keeps Linked (purge_expired_objects io now_unix limit) := by
  refine keeps_of_after (fun store linked => ?_)
  obtain ⟨ids,taken,-⟩ := purge_taken io now_unix limit store
  exact linked.taken taken

/-! ### In a transaction -/

theorem put_object_tx_keeps (io : Io) (content : Bytes) : KeepsView Linked (put_object io content) := by
  refine (keeps_view_of_reads reads_get).bind (fun seen => ?_)
  split
  · refine .lifted (fun encoded spelled => ?_)
    obtain ⟨fits,rfl⟩ := object_encoded_tx.mp spelled
    refine KeepsView.bind (.rethrow (put_keeps io _ _ (fun s linked => ?_))) (fun _ => keeps_view_of_reads (reads_pure _))
    exact linked.put_object fits
  · exact keeps_view_of_reads (reads_pure _)

theorem link_object_tx_keeps (io : Io) (ns name : Bytes) (id : ObjectId) : KeepsView Linked (link_object io ns name id) := by
  intro tx linked
  unfold link_object
  rw [get_bind]
  cases found : tx.get_internal (VoodooStore.object_key id) with
  | none => exact linked
  | some value =>
    simp only [Option.isNone_some,Bool.false_eq_true,if_false]
    have there : Exists tx.view id := ⟨value,(get_internal_eq tx _).symm.trans found⟩
    cases made : VoodooStore.reference_key ns name with
    | error e => exact linked
    | ok key =>
      obtain ⟨-,-,-,rfl⟩ := reference_key_ok.mp made
      rw [bind_of_ok (lift_ok _ _)]
      cases written : rethrow DomainTransactionError.Store (put_internal io (refKey ns name) id.val) tx with
      | ok x u =>
        show Linked u.view
        rw [(put_internal_ok (rethrow_ok.mp written)).1]
        exact linked.link ns name there
      | error e u =>
        show Linked u.view
        obtain ⟨_,failed,-⟩ := rethrow_error.mp written
        rw [put_clean io _ _ _ _ _ failed]
        exact linked

theorem unlink_object_tx_keeps (io : Io) (ns name : Bytes) : KeepsView Linked (unlink_object io ns name) := by
  refine .lifted (fun key made => (keeps_view_of_reads reads_get).bind (fun seen => ?_))
  obtain ⟨-,-,-,rfl⟩ := reference_key_ok.mp made
  split
  · refine KeepsView.bind (.rethrow (delete_keeps io _ (fun s linked => ?_))) (fun _ => keeps_view_of_reads (reads_pure _))
    exact linked.unlink ns name
  · exact keeps_view_of_reads (reads_pure _)

theorem object_call_keeps (call : ObjectCall) : Keeps Linked (objects.on_store call) := by
  have reply : ∀ {α : Type} {x : EStateM ObjectError Store α} (f : α → ObjectReply), Keeps Linked x →
      Keeps Linked (do return f (← rethrow ObjectFailure.Object x)) :=
    fun f keeps => keeps.rethrow.bind (fun _ => keeps_of_reads (reads_pure _))
  cases call with
  | PutObject io content => exact reply _ (put_object_keeps io io content [])
  | PutObjectWithMetadata io metadata_io content metadata => exact reply _ (put_object_keeps io metadata_io content metadata)
  | LinkObject io ns name id => exact reply (fun _ => .Linked) (link_object_keeps io ns name id)
  | UnlinkObject io ns name => exact reply _ (unlink_object_keeps io ns name)
  | GcOrphanObjects io limit => exact reply _ (gc_keeps io limit)
  | PurgeExpiredObjects io now_unix limit => exact reply _ (purge_keeps io now_unix limit)

theorem object_call_keeps_view (call : ObjectTxCall) : KeepsView Linked (objects.on_tx call) := by
  have reply : ∀ {α : Type} {x : EStateM DomainTransactionError Transaction α} (f : α → ObjectReply), KeepsView Linked x →
      KeepsView Linked (do return f (← rethrow ObjectFailure.Tx x)) :=
    fun f keeps => keeps.rethrow.bind (fun _ => keeps_view_of_reads (reads_pure _))
  cases call with
  | PutObject io content => exact reply _ (put_object_tx_keeps io content)
  | LinkObject io ns name id => exact reply (fun _ => .Linked) (link_object_tx_keeps io ns name id)
  | UnlinkObject io ns name => exact reply _ (unlink_object_tx_keeps io ns name)

theorem object_call_steady {call : ObjectCall} (durable : call.Durable) : Steady (objects.on_store call) := by
  have reads : ∀ {ε α : Type} {x : EStateM ε Store α}, Reads x → Steady x := steady_of_reads
  have puts : ∀ {io metadata_io : Io} (content : Bytes) (metadata : MetadataEntries), io.Durable → metadata_io.Durable →
      Steady (Store.put_object_with_metadata io metadata_io content metadata) := by
    intro io metadata_io content metadata first second
    refine (reads (reads_lift _)).bind (fun values => (reads reads_get).bind (fun store => ?_))
    split
    · refine (reads (reads_lift _)).bind (fun encoded => (put_alone_atomic first _ _).steady.rethrow.bind (fun _ => ?_))
      split
      · refine (reads (reads_lift _)).bind (fun encoded => (put_alone_atomic second _ _).steady.rethrow.bind (fun _ => ?_))
        exact reads (reads_pure _)
      · exact reads (reads_pure _)
    · exact reads (reads_pure _)
  cases call with
  | PutObject io content => exact (puts content [] durable durable).rethrow.bind (fun _ => reads (reads_pure _))
  | PutObjectWithMetadata io metadata_io content metadata =>
    exact (puts content metadata durable.1 durable.2).rethrow.bind (fun _ => reads (reads_pure _))
  | LinkObject io ns name id =>
    refine Steady.bind (.rethrow ((reads reads_get).bind (fun store => (reads (reads_lift _)).bind (fun found => ?_)))) (fun _ => reads (reads_pure _))
    split
    · exact reads (reads_throw _)
    · exact (reads (reads_lift _)).bind (fun key => (put_alone_atomic durable key _).steady.rethrow)
  | UnlinkObject io ns name =>
    refine Steady.bind (.rethrow ((reads (reads_lift _)).bind (fun key => (reads reads_get).bind (fun store => ?_)))) (fun _ => reads (reads_pure _))
    split
    · exact reads (reads_pure _)
    · exact (delete_alone_atomic durable key).steady.rethrow.bind (fun _ => reads (reads_pure _))
  | GcOrphanObjects io limit =>
    refine Steady.bind (.rethrow ((reads reads_get).bind (fun store => (reads (reads_lift _)).bind (fun referenced => ?_)))) (fun _ => reads (reads_pure _))
    split
    · exact reads (reads_pure _)
    refine (reads (reads_lift _)).bind (fun keys => ?_)
    split
    · exact (within_steady durable (remove_orphans_stages durable.1 keys)).bind (fun _ => reads (reads_pure _))
    · exact reads (reads_pure _)
  | PurgeExpiredObjects io now_unix limit =>
    refine Steady.bind (.rethrow ((reads reads_get).bind (fun store => (reads (reads_lift _)).bind (fun references => ?_)))) (fun _ => reads (reads_pure _))
    refine (reads (reads_lift _)).bind (fun sweep => ?_)
    split
    · exact (within_steady durable (remove_swept_stages durable.1 _)).bind (fun _ => reads (reads_pure _))
    · exact reads (reads_pure _)

theorem object_call_stages {call : ObjectTxCall} (durable : call.Durable) : Stages (objects.on_tx call) := by
  have reads : ∀ {ε α : Type} {x : EStateM ε Transaction α}, Reads x → Stages x := stages_of_reads
  cases call with
  | PutObject io content =>
    refine Stages.bind (.rethrow ((reads reads_get).bind (fun tx => ?_))) (fun _ => reads (reads_pure _))
    split
    · exact (reads (reads_lift _)).bind (fun encoded => (put_stages durable.1 _ _).rethrow.bind (fun _ => reads (reads_pure _)))
    · exact reads (reads_pure _)
  | LinkObject io ns name id =>
    refine Stages.bind (.rethrow ((reads reads_get).bind (fun tx => ?_))) (fun _ => reads (reads_pure _))
    split
    · exact reads (reads_throw _)
    · exact (reads (reads_lift _)).bind (fun key => (put_stages durable.1 _ _).rethrow)
  | UnlinkObject io ns name =>
    refine Stages.bind (.rethrow ((reads (reads_lift _)).bind (fun key => (reads reads_get).bind (fun tx => ?_)))) (fun _ => reads (reads_pure _))
    split
    · exact (delete_stages durable.1 _).rethrow.bind (fun _ => reads (reads_pure _))
    · exact reads (reads_pure _)

/-! ## Runs -/

def objectTerms : Terms ObjectFailure ObjectCall ObjectTxCall ObjectReply := .plain ObjectKey ObjectCall.Durable ObjectTxCall.Durable

theorem objects_preserved : Preserved objects objectTerms (fun state view _ => Linked state ∧ ∀ seen, view = some seen → Linked seen) :=
  preserved_map (fun _ => object_call_steady) (fun _ => object_call_stages) (fun call _ => object_call_keeps call)
    (fun call _ => object_call_keeps_view call) (fun _ => object_apart) (fun _ _ same linked => linked.congr same)

/-- What a reader finds: objects under their hashes, references to objects, and metadata of objects. -/
structure Undangling (store : Store) : Prop where
  readable : ∀ id, ∃ found, store.get_object id = .ok found
  hashed : ∀ id content, store.get_object id = .ok (some content) → object_id content = id ∧ store.verify_object id = .ok true
  resolved : ∀ ns name id, store.resolve_object_ref ns name = .ok (some id) → ∃ content, store.get_object id = .ok (some content)
  named : ∀ key value, starts_with key REF_PREFIX = true → store.state[key]? = some value →
    ∃ id : ObjectId, value = id.val ∧ ∃ content, store.get_object id = .ok (some content)
  described : ∀ key value, starts_with key METADATA_PREFIX = true → store.state[key]? = some value →
    ∃ id info, key = metadata_key id ∧ store.object_info id = .ok (some info)

theorem Linked.get_object {store : Store} (linked : Linked store.state) {id : ObjectId} (there : Exists store.state id) :
    ∃ content, store.get_object id = .ok (some content) ∧ object_id content = id := by
  obtain ⟨value,found⟩ := there
  obtain ⟨content,fits,entry⟩ := linked.objects _ value (object_key_own id) found
  obtain ⟨keyed,rfl⟩ := Prod.mk.inj entry
  refine ⟨content,?_,object_key_injective keyed⟩
  unfold Store.get_object
  rw [show store.get (Objects.object_key id) = some (spelledObject content) from found,Option.mapM_some,decode_spelled_object fits]
  rfl

theorem Linked.undangling {store : Store} (linked : Linked store.state) : Undangling store := by
  have named : ∀ key value, starts_with key REF_PREFIX = true → store.state[key]? = some value →
      ∃ id : ObjectId, value = id.val ∧ ∃ content, store.get_object id = .ok (some content) := by
    intro key value own found
    obtain ⟨id,names,there⟩ := linked.references key value own found
    obtain ⟨content,read,-⟩ := linked.get_object there
    exact ⟨id,names,content,read⟩
  have hashed : ∀ id content, store.get_object id = .ok (some content) → object_id content = id := by
    intro id content read
    obtain ⟨other,same,hashes⟩ := linked.get_object (get_object_some read)
    rw [read] at same
    cases same
    exact hashes
  refine ⟨?_,?_,?_,named,?_⟩
  · intro id
    cases found : store.get (Objects.object_key id) with
    | none => exact ⟨none,by rw [Store.get_object,found]; rfl⟩
    | some value =>
      obtain ⟨content,read,-⟩ := linked.get_object ⟨value,found⟩
      exact ⟨_,read⟩
  · intro id content read
    refine ⟨hashed id content read,?_⟩
    unfold Store.verify_object
    rw [read,ok_bind]
    simp [hashed id content read]
  · intro ns name id resolved
    obtain ⟨key,made,resolved⟩ := bind_ok_iff.mp resolved
    obtain ⟨-,-,-,rfl⟩ := object_reference_key_ok.mp made
    cases found : store.get (refKey ns name) with
    | none =>
      rw [found] at resolved
      cases resolved
    | some value =>
      rw [found] at resolved
      obtain ⟨other,names,is⟩ := mapM_some resolved
      cases is
      obtain ⟨same,is,exist⟩ := named _ value (ref_key_own ns name) found
      have equal : same = id := Subtype.ext (is.symm.trans (object_id_try_from.mp (ok_or_ok.mp names)))
      rw [← equal]
      exact exist
  · intro key value own found
    obtain ⟨id,metadata,rfl,normal,spelled,there⟩ := linked.metadata key value own found
    obtain ⟨content,read,-⟩ := linked.get_object there
    refine ⟨id,⟨id,.ofNat content.length,metadata⟩,rfl,?_⟩
    have described : store.metadata_of id = .ok metadata := by
      unfold Store.metadata_of
      rw [show store.get (metadata_key id) = some value from found,Option.mapM_some,decode_encoded_metadata normal spelled]
      rfl
    unfold Store.object_info
    rw [read,ok_bind]
    dsimp only
    rw [described]
    rfl

/-- What a collection does: these objects, which were there and which no
    reference named, are gone with their metadata, and everything else is as it was. -/
structure Collects (store t : Store) (ids : List ObjectId) : Prop where
  distinct : ids.Nodup
  stored : ∀ id ∈ ids, ∃ content, store.get_object id = .ok (some content)
  unnamed : ∀ id ∈ ids, ∀ key, starts_with key REF_PREFIX = true → store.state[key]? ≠ some id.val
  gone : ∀ id ∈ ids, t.get_object id = .ok none ∧ t.state[metadata_key id]? = none
  others : ∀ id, id ∉ ids → t.get_object id = store.get_object id ∧ t.object_info id = store.object_info id
  references : ∀ ns name, t.resolve_object_ref ns name = store.resolve_object_ref ns name
  listed : ∀ ns name_prefix, t.list_object_refs ns name_prefix = store.list_object_refs ns name_prefix
  untouched : ∀ key, starts_with key CDC_PREFIX = false → ¬ Theirs ids key → t.state[key]? = store.state[key]?

theorem Taken.collects {store t : Store} {ids : List ObjectId} (linked : Linked store.state) (taken : Taken store t ids) :
    Collects store t ids := by
  have untouched : ∀ key, starts_with key CDC_PREFIX = false → ¬ Theirs ids key → t.state[key]? = store.state[key]? := by
    intro key outside others
    rw [taken.left key outside,removed_others others]
  have gone : ∀ key, starts_with key CDC_PREFIX = false → Theirs ids key → t.state[key]? = none := by
    intro key outside theirs
    rw [taken.left key outside,removed_theirs theirs]
  have references : ∀ key, starts_with key REF_PREFIX = true → t.state[key]? = store.state[key]? :=
    fun key own => untouched key (object_apart (reference_inside own)) (reference_not_theirs own)
  have object_outside := fun id => object_apart (data_inside (object_key_own id))
  have metadata_outside := fun id => object_apart (metadata_inside (metadata_key_own id))
  refine ⟨taken.distinct,?_,taken.unnamed,?_,?_,?_,?_,untouched⟩
  · intro id member
    obtain ⟨content,read,-⟩ := linked.get_object (taken.stored id member)
    exact ⟨content,read⟩
  · intro id member
    refine ⟨?_,gone _ (metadata_outside id) (theirs_metadata.mpr member)⟩
    unfold Store.get_object
    rw [show t.get (Objects.object_key id) = none from gone _ (object_outside id) (theirs_object.mpr member)]
    rfl
  · intro id other
    have object : t.get (Objects.object_key id) = store.get (Objects.object_key id) :=
      untouched _ (object_outside id) (theirs_object.not.mpr other)
    have metadata : t.get (metadata_key id) = store.get (metadata_key id) :=
      untouched _ (metadata_outside id) (theirs_metadata.not.mpr other)
    unfold Store.object_info Store.get_object Store.metadata_of
    rw [object,metadata]
    exact ⟨rfl,rfl⟩
  · intro ns name
    unfold Store.resolve_object_ref
    cases made : Objects.reference_key ns name with
    | error e => rfl
    | ok key =>
      obtain ⟨-,-,-,rfl⟩ := object_reference_key_ok.mp made
      rw [ok_bind,ok_bind,show t.get (refKey ns name) = store.get (refKey ns name) from references _ (ref_key_own ns name)]
  · intro ns name_prefix
    unfold Store.list_object_refs
    cases made : reference_namespace_prefix ns with
    | error e => rfl
    | ok front =>
      have inside : REF_PREFIX <+: front := by
        unfold reference_namespace_prefix at made
        obtain ⟨-,made⟩ := refuse_ok_iff.mp made
        obtain ⟨len,-,made⟩ := bind_ok_iff.mp made
        cases made
        exact List.prefix_append _ _
      have same : scan t.state front = scan store.state front := by
        refine scan_congr (fun key own => references key ?_)
        rw [starts_with_iff] at own ⊢
        exact inside.trans own
      rw [ok_bind,ok_bind,scan_prefix_eq,scan_prefix_eq,same]

/-- After any run on a new store, with no write cut short and every commit
    confirmed, nothing dangles, in what is committed and in what an open
    transaction sees; and whatever a collector then removes, no more than asked
    for, no reference named it and, if it was purged, it had expired. -/
theorem references_never_dangle {io : Io} {path : Path} {options : StoreOptions} {store : Store} {left : Bytes}
    (opened : open_with_options io path options [] = .ok store left) {moves : List (Move ObjectCall ObjectTxCall)}
    (along : (Play.mk (.Idle store) []).Along objects objectTerms moves) :
    let play := Play.steps objects ⟨.Idle store,[]⟩ moves
    let reached := play.session.store
    Linked reached.state ∧ (∀ view, play.session.view = some view → Linked view) ∧ Undangling reached ∧
    (∀ io limit, ∃ ids, Collects reached (after (gc_orphan_objects io limit) reached) ids ∧ ids.length ≤ limit ∧
      ∀ report, returned (gc_orphan_objects io limit) reached = .ok report → report.removed = ids.length) ∧
    ∀ io now_unix limit, ∃ ids, Collects reached (after (purge_expired_objects io now_unix limit) reached) ids ∧
      (0 < limit → ids.length ≤ limit) ∧
      (∀ id ∈ ids, ∃ info expiry, reached.object_info id = .ok (some info) ∧ recorded_expiry info.metadata = .ok (some expiry) ∧
        expiry ≤ now_unix) ∧
      ∀ report, returned (purge_expired_objects io now_unix limit) reached = .ok report → report.removed = ids.length := by
  have kept := play_invariant objects_preserved ⟨linked_empty,by simp⟩ opened along
  obtain ⟨linked,seen⟩ := kept.holds
  refine ⟨linked,seen,linked.undangling,?_,?_⟩
  · intro io limit
    obtain ⟨ids,taken,bound,counted⟩ := gc_taken io limit (Play.steps objects ⟨.Idle store,[]⟩ moves).session.store
    exact ⟨ids,taken.collects linked,bound,counted⟩
  · intro io now_unix limit
    obtain ⟨ids,taken,bound,expired,counted⟩ := purge_taken io now_unix limit (Play.steps objects ⟨.Idle store,[]⟩ moves).session.store
    refine ⟨ids,taken.collects linked,bound,?_,counted⟩
    intro id member
    obtain ⟨metadata,expiry,described,recorded,past⟩ := expired id member
    obtain ⟨content,read,-⟩ := linked.get_object (taken.stored id member)
    refine ⟨⟨id,.ofNat content.length,metadata⟩,expiry,?_,recorded,past⟩
    unfold Store.object_info
    rw [read,ok_bind]
    dsimp only
    rw [described]
    rfl

end

/-- Two objects, one of them linked in a transaction and one with metadata, and a collection between reopenings. -/
def linkedAndCollected : List (Move ObjectCall ObjectTxCall) :=
  [.Call (.PutObject calm [1]),.Call (.PutObjectWithMetadata calm calm [2] [(ascii "expires_at_unix",ascii "5")]),.Begin,
    .CallTx (.PutObject calm [3]),.CallTx (.LinkObject calm [97] [98] (@object_id crates [3])),.Commit calm,
    .Reopen calm ["a.vstore"] .default,.Call (.PurgeExpiredObjects calm 5 1),.Call (.GcOrphanObjects calm 1)]

theorem linked_and_collected_whole : ∃ store left, @open_with_options crates calm ["a.vstore"] .default [] = .ok store left ∧
    @Undangling crates (@Play.steps crates _ _ _ _ (@objects crates) ⟨.Idle store,[]⟩ linkedAndCollected).session.store := by
  obtain ⟨store,left,opened⟩ := @sound_opens crates calm [] ["a.vstore"] .default calm_faultless (.inl rfl)
  refine ⟨store,left,opened,(@references_never_dangle crates _ _ _ _ _ opened _ ?_).2.2.1⟩
  refine @along_of_fine crates _ _ _ _ _ objectTerms ObjectCall.Durable ObjectTxCall.Durable _
    (fun _ _ fine => fine) (fun _ _ fine => fine) (fun _ _ _ => trivial) ?_ _
  intro move member
  simp only [linkedAndCollected,List.mem_cons,List.not_mem_nil,or_false] at member
  rcases member with rfl | rfl | rfl | rfl | rfl | rfl | rfl | rfl | rfl
  · exact calm_durable
  · exact ⟨calm_durable,calm_durable⟩
  · exact trivial
  · exact calm_durable
  · exact calm_durable
  · exact calm_durable
  · exact trivial
  · exact calm_durable
  · exact calm_durable

/-- A link whose commit is not confirmed, and a collection that takes the object. -/
def linkedAndLost : List (Move ObjectCall ObjectTxCall) :=
  [.Call (.PutObject calm [1]),.Call (.LinkObject unsynced [97] [98] (@object_id crates [1])),.Call (.GcOrphanObjects calm 1),
    .Reopen calm ["a.vstore"] .default]

set_option maxRecDepth 20000 in
/-- After the reopening the reference is there, and the object is not. -/
theorem unconfirmed_link_dangles : ∃ store left, @open_with_options crates calm ["a.vstore"] .default [] = .ok store left ∧
    let reached := (@Play.steps crates _ _ _ _ (@objects crates) ⟨.Idle store,[]⟩ linkedAndLost).session.store
    reached.resolve_object_ref [97] [98] = .ok (some (@object_id crates [1])) ∧
      reached.get_object (@object_id crates [1]) = .ok none ∧ ¬ @Undangling crates reached := by
  have evaluated : passes (@open_with_options crates calm ["a.vstore"] .default []) (fun store _ =>
      let reached := (@Play.steps crates _ _ _ _ (@objects crates) ⟨.Idle store,[]⟩ linkedAndLost).session.store
      (reached.resolve_object_ref [97] [98]).toOption.any (fun found => decide (found = some (@object_id crates [1]))) &&
        (reached.get_object (@object_id crates [1])).toOption.any (fun found => decide (found = none))) = true := by
    rw [crates_eq_quick]
    decide +kernel
  obtain ⟨store,left,opened,evaluated⟩ := passes_iff.mp evaluated
  obtain ⟨resolves,gone⟩ := Bool.and_eq_true_iff.mp evaluated
  have resolved := any_eq_iff.mp resolves
  have missing := any_eq_iff.mp gone
  refine ⟨store,left,opened,resolved,missing,?_⟩
  intro whole
  obtain ⟨content,there⟩ := @Undangling.resolved crates _ whole _ _ _ resolved
  rw [missing] at there
  cases there

end VoodooStore
