import VoodooStore.Streams
import VoodooStore.Objects

/-!
# What is stored of objects

Every reference names an object that is there, every object is stored under the
hash of its content, and only objects that are there have metadata (`Linked`).
A collector takes objects away that no reference names, together with their
metadata, and leaves everything linked (`Linked.taken`).
-/
namespace VoodooStore
open Effects Reading Objects
set_option linter.unusedSimpArgs false

/-! ## Spellings -/

def spelledObject (content : Bytes) : Bytes := [OBJECT_VERSION] ++ ((UInt64.ofNat content.length).to_le_bytes ++ content)

theorem object_encoded {content encoded : Bytes} :
    Objects.encode_object content = .ok encoded ↔ content.length < 2 ^ 64 ∧ encoded = spelledObject content := by
  unfold Objects.encode_object
  rw [bind_ok_iff]
  constructor
  · rintro ⟨len,fits,made⟩
    cases made
    obtain ⟨small,rfl⟩ := u64_length_ok.mp fits
    exact ⟨small,rfl⟩
  · rintro ⟨fits,rfl⟩
    exact ⟨_,u64_length_ok.mpr ⟨fits,rfl⟩,rfl⟩

theorem object_encoded_tx {content encoded : Bytes} :
    VoodooStore.encode_object content = .ok encoded ↔ content.length < 2 ^ 64 ∧ encoded = spelledObject content := by
  unfold VoodooStore.encode_object
  rw [bind_ok_iff]
  constructor
  · rintro ⟨len,fits,made⟩
    cases made
    obtain ⟨small,rfl⟩ := u64_length_ok.mp fits
    exact ⟨small,rfl⟩
  · rintro ⟨fits,rfl⟩
    exact ⟨_,u64_length_ok.mpr ⟨fits,rfl⟩,rfl⟩

theorem decode_spelled_object {content : Bytes} (fits : content.length < 2 ^ 64) : decode_object (spelledObject content) = .ok content := by
  have size : (spelledObject content).length = 9 + content.length := by
    simp [spelledObject]
    omega
  have length : ((spelledObject content).drop 1).take 8 = (UInt64.ofNat content.length).to_le_bytes := by
    show ((UInt64.ofNat content.length).to_le_bytes ++ content).take 8 = _
    exact List.take_left' (by simp)
  have rest : (spelledObject content).drop 9 = content := by
    unfold spelledObject
    rw [← List.append_assoc]
    exact List.drop_left' (by simp)
  have first : (spelledObject content).head? = some OBJECT_VERSION := rfl
  unfold decode_object
  rw [size,first,length,u64_from_to_le,UInt64.toNat_ofNat_of_lt' fits,if_neg (by simp)]
  dsimp only
  rw [if_neg (by simp),rest]

theorem object_id_try_from {bytes : Bytes} {id : ObjectId} : ObjectId.try_from bytes = some id ↔ bytes = id.val := by
  unfold ObjectId.try_from
  constructor
  · intro made
    split at made
    · cases made
      rfl
    · cases made
  · rintro rfl
    rw [dif_pos id.property]

theorem decode_object_key_ok {key : Bytes} {id : ObjectId} : decode_object_key key = .ok id ↔ key = Objects.object_key id := by
  unfold decode_object_key
  constructor
  · intro made
    split at made
    · rename_i whole
      obtain ⟨rest,rfl⟩ := (starts_with_iff _ _).mp whole.1
      rw [List.drop_left] at made
      rw [object_id_try_from.mp (ok_or_ok.mp made)]
      rfl
    · cases made
  · rintro rfl
    have own : starts_with (Objects.object_key id) OBJECT_PREFIX = true := (starts_with_iff _ _).mpr (List.prefix_append _ _)
    rw [if_pos ⟨own,by simp [Objects.object_key,id.property]⟩,Objects.object_key,List.drop_left,object_id_try_from.mpr rfl]
    rfl

theorem object_key_injective {a b : ObjectId} (same : Objects.object_key a = Objects.object_key b) : a = b :=
  Subtype.ext (List.append_cancel_left same)

theorem metadata_key_injective {a b : ObjectId} (same : metadata_key a = metadata_key b) : a = b :=
  Subtype.ext (List.append_cancel_left same)

/-! ### References -/

def refKey (ns name : Bytes) : Bytes := REF_PREFIX ++ Tuples.tuple 4 [ns,name]

theorem spelled_reference {ns name : Bytes} (fits : ns.length < 2 ^ 32) (short : name.length < 2 ^ 32) :
    REF_PREFIX ++ ((UInt32.ofNat ns.length).to_be_bytes ++ (ns ++ ((UInt32.ofNat name.length).to_be_bytes ++ name))) = refKey ns name := by
  rw [component_eq short,← List.append_assoc (UInt32.ofNat ns.length).to_be_bytes,component_eq fits]
  simp [refKey,Tuples.tuple]

/-- What the two functions that write the key of a reference have in common. -/
theorem written_reference_ok {ε : Type} {empty too_long : ε} {ns name key : Bytes} :
    (if ns = [] ∨ name = [] then .error empty else do
      let namespace_len ← ok_or too_long (UInt32.try_from ns.length)
      let name_len ← ok_or too_long (UInt32.try_from name.length)
      return REF_PREFIX ++ (namespace_len.to_be_bytes ++ (ns ++ (name_len.to_be_bytes ++ name))) : Except ε Bytes) = .ok key ↔
      (ns ≠ [] ∧ name ≠ []) ∧ ns.length < 2 ^ 32 ∧ name.length < 2 ^ 32 ∧ key = refKey ns name := by
  by_cases blank : ns = [] ∨ name = []
  · rw [if_pos blank]
    constructor
    · intro made
      cases made
    · rintro ⟨⟨first,second⟩,-⟩
      rcases blank with none_there | none_there
      · exact absurd none_there first
      · exact absurd none_there second
  · rw [if_neg blank]
    rw [not_or] at blank
    constructor
    · intro made
      obtain ⟨a,first,made⟩ := bind_ok_iff.mp made
      obtain ⟨b,second,made⟩ := bind_ok_iff.mp made
      obtain ⟨fits,rfl⟩ := u32_length_ok.mp first
      obtain ⟨short,rfl⟩ := u32_length_ok.mp second
      rw [spelled_reference fits short] at made
      exact ⟨blank,fits,short,(Except.ok.inj made).symm⟩
    · rintro ⟨-,fits,short,rfl⟩
      rw [u32_length_ok.mpr ⟨fits,rfl⟩,ok_bind,u32_length_ok.mpr ⟨short,rfl⟩,ok_bind,
        spelled_reference fits short]
      rfl

theorem object_reference_key_ok {ns name key : Bytes} : Objects.reference_key ns name = .ok key ↔
    (ns ≠ [] ∧ name ≠ []) ∧ ns.length < 2 ^ 32 ∧ name.length < 2 ^ 32 ∧ key = refKey ns name := written_reference_ok

theorem reference_key_ok {ns name key : Bytes} : VoodooStore.reference_key ns name = .ok key ↔
    (ns ≠ [] ∧ name ≠ []) ∧ ns.length < 2 ^ 32 ∧ name.length < 2 ^ 32 ∧ key = refKey ns name := written_reference_ok

/-! ### Metadata -/

/-- Metadata as they are stored: in the order of their keys, and within the limits. -/
def Normal (metadata : MetadataEntries) : Prop := normalize_metadata metadata = .ok metadata

theorem normalize_normal {given metadata : MetadataEntries} (done : normalize_metadata given = .ok metadata) : Normal metadata := by
  obtain ⟨total,checked,done⟩ := bind_ok_iff.mp done
  obtain ⟨small,same⟩ := refuse_ok_iff.mp done
  cases same
  have sorted := @List.pairwise_mergeSort (Bytes × Bytes) (fun left right => (compare left.1 right.1).isLE)
    (fun a b c first second => Std.TransCmp.isLE_trans first second) (fun a b => by
      have swapped : compare b.1 a.1 = (compare a.1 b.1).swap := Std.OrientedCmp.eq_swap
      rw [swapped]
      cases compare a.1 b.1 <;> rfl) given
  have again := List.mergeSort_of_pairwise sorted
  unfold Normal normalize_metadata
  dsimp only
  rw [again,checked,ok_bind,if_neg small]

theorem parses_taken {ε : Type} [Corrupt ε] {bytes : Bytes} {len : Nat} (size : bytes.length = len) :
    Parses USIZE (Fields.take len : Fields ε Bytes) bytes bytes := by
  subst size
  exact parses_take _ bytes

theorem parses_entries {metadata : MetadataEntries} {encoded : Bytes} (spelled : encode_entries metadata = .ok encoded) :
    Parses USIZE (read_entries metadata.length) encoded metadata := by
  induction metadata generalizing encoded with
  | nil =>
    cases spelled
    exact parses_pure _
  | cons entry metadata ih =>
    obtain ⟨key,value⟩ := entry
    obtain ⟨key_len,first,spelled⟩ := bind_ok_iff.mp spelled
    obtain ⟨value_len,second,spelled⟩ := bind_ok_iff.mp spelled
    obtain ⟨rest,last,spelled⟩ := bind_ok_iff.mp spelled
    cases spelled
    obtain ⟨fits,rfl⟩ := u32_length_ok.mp first
    obtain ⟨short,rfl⟩ := u32_length_ok.mp second
    refine (parses_u32 _).bind ((parses_u32 _).bind ((parses_taken (u32_of_length fits).symm).bind ?_))
    exact (parses_taken (u32_of_length short).symm).bind ((ih last).ends (parses_pure _))

/-- Every entry has a key, so that the spelling is not much longer than what it spells. -/
theorem entries_length {metadata : MetadataEntries} {previous : Option Bytes} {start total : Nat} {encoded : Bytes}
    (checked : check_metadata previous start metadata = .ok total) (spelled : encode_entries metadata = .ok encoded) :
    encoded.length + 9 * start ≤ 9 * total := by
  induction metadata generalizing previous start encoded with
  | nil =>
    cases checked
    cases spelled
    simp
  | cons entry metadata ih =>
    obtain ⟨key,value⟩ := entry
    unfold check_metadata at checked
    obtain ⟨sizes,checked⟩ := refuse_ok_iff.mp checked
    obtain ⟨-,checked⟩ := refuse_ok_iff.mp checked
    obtain ⟨sum,added,checked⟩ := bind_ok_iff.mp checked
    have added := ok_or_ok.mp added
    unfold usize_checked_add at added
    obtain ⟨key_len,-,spelled⟩ := bind_ok_iff.mp spelled
    obtain ⟨value_len,-,spelled⟩ := bind_ok_iff.mp spelled
    obtain ⟨rest,last,spelled⟩ := bind_ok_iff.mp spelled
    have within_limits := ih checked last
    have named : 0 < key.length := List.length_pos_of_ne_nil (fun empty => sizes (.inl empty))
    cases spelled
    split at added
    · cases added
      simp
      omega
    · cases added

/-- What was stored as metadata is read back. -/
theorem decode_encoded_metadata {metadata : MetadataEntries} {encoded : Bytes} (normal : Normal metadata)
    (spelled : encode_metadata metadata = .ok encoded) : decode_metadata encoded = .ok metadata := by
  obtain ⟨total,checked,done⟩ := bind_ok_iff.mp normal
  obtain ⟨small,same⟩ := refuse_ok_iff.mp done
  rw [Except.ok.inj same] at checked
  obtain ⟨count,counted,spelled⟩ := bind_ok_iff.mp spelled
  obtain ⟨entries,written,spelled⟩ := bind_ok_iff.mp spelled
  cases spelled
  obtain ⟨few,rfl⟩ := u32_length_ok.mp counted
  have bound := entries_length checked written
  have parsed : Parses USIZE read_metadata ([OBJECT_VERSION] ++ ((UInt32.ofNat metadata.length).to_le_bytes ++ entries)) metadata := by
    refine (parses_u8 _).bind ?_
    rw [if_neg (by simp)]
    refine (parses_u32 _).bind ?_
    rw [u32_of_length few]
    exact parses_entries written
  unfold decode_metadata
  rw [parsed.readAll _ (by rw [USIZE]; simp; omega),ok_bind]
  exact normal

/-! ## What is stored -/

def OBJ_PREFIX : Bytes := INTERNAL_KEY_PREFIX ++ ascii "obj:"

/-- The keys of objects, metadata and references. -/
def ObjectKey (key : Bytes) : Prop := starts_with key OBJ_PREFIX = true

/-- There is an object of this name. -/
def Exists (state : State) (id : ObjectId) : Prop := ∃ value, state[Objects.object_key id]? = some value

theorem data_inside {key : Bytes} (own : starts_with key OBJECT_PREFIX = true) : ObjectKey key := by
  unfold ObjectKey
  rw [starts_with_iff] at own ⊢
  exact (show OBJ_PREFIX <+: OBJECT_PREFIX by decide).trans own

theorem metadata_inside {key : Bytes} (own : starts_with key METADATA_PREFIX = true) : ObjectKey key := by
  unfold ObjectKey
  rw [starts_with_iff] at own ⊢
  exact (show OBJ_PREFIX <+: METADATA_PREFIX by decide).trans own

theorem reference_inside {key : Bytes} (own : starts_with key REF_PREFIX = true) : ObjectKey key := by
  unfold ObjectKey
  rw [starts_with_iff] at own ⊢
  exact (show OBJ_PREFIX <+: REF_PREFIX by decide).trans own

theorem object_apart {key : Bytes} (own : ObjectKey key) : starts_with key CDC_PREFIX = false := by
  rw [Bool.eq_false_iff,ne_eq,starts_with_iff]
  exact prefixes_apart (by decide) ((starts_with_iff _ _).mp own)

theorem object_key_own (id : ObjectId) : starts_with (Objects.object_key id) OBJECT_PREFIX = true :=
  (starts_with_iff _ _).mpr (List.prefix_append _ _)

theorem metadata_key_own (id : ObjectId) : starts_with (metadata_key id) METADATA_PREFIX = true :=
  (starts_with_iff _ _).mpr (List.prefix_append _ _)

theorem ref_key_own (ns name : Bytes) : starts_with (refKey ns name) REF_PREFIX = true :=
  (starts_with_iff _ _).mpr (List.prefix_append _ _)

/-- The three kinds of keys are apart. -/
theorem kinds_apart {one other a b : Bytes} (apart : ¬ one <+: other ∧ ¬ other <+: one) (first : starts_with a one = true)
    (second : starts_with b other = true) : a ≠ b := by
  rintro rfl
  rw [starts_with_iff] at first second
  exact prefixes_apart apart first second

/-- What is written does not take objects away. -/
theorem object_key_outside (id : ObjectId) : starts_with (Objects.object_key id) CDC_PREFIX = false :=
  object_apart (data_inside (object_key_own id))

theorem metadata_key_outside (id : ObjectId) : starts_with (metadata_key id) CDC_PREFIX = false :=
  object_apart (metadata_inside (metadata_key_own id))

theorem object_not_metadata (a b : ObjectId) : Objects.object_key a ≠ metadata_key b :=
  kinds_apart (by decide) (object_key_own a) (metadata_key_own b)

theorem metadata_of_none {store : Store} {id : ObjectId} (none_there : store.state[metadata_key id]? = none) :
    store.metadata_of id = .ok [] := by
  unfold Store.metadata_of
  rw [show store.get (metadata_key id) = none from none_there]
  rfl

theorem metadata_of_some {store : Store} {id : ObjectId} {metadata : MetadataEntries} {encoded : Bytes} (normal : Normal metadata)
    (spelled : encode_metadata metadata = .ok encoded) (there : store.state[metadata_key id]? = some encoded) :
    store.metadata_of id = .ok metadata := by
  unfold Store.metadata_of
  rw [show store.get (metadata_key id) = some encoded from there,Option.mapM_some,decode_encoded_metadata normal spelled]
  rfl

theorem Exists.insert {state : State} {id : ObjectId} (there : Exists state id) (key value : Bytes) : Exists (state.insert key value) id := by
  obtain ⟨old,found⟩ := there
  by_cases here : key = Objects.object_key id
  · exact ⟨value,by rw [get_insert,if_pos here]⟩
  · exact ⟨old,by rw [get_insert,if_neg here]; exact found⟩

/-- The objects with their metadata are taken away. -/
def removed (state : State) (ids : List ObjectId) : State :=
  ids.foldl (fun s id => (s.erase (Objects.object_key id)).erase (metadata_key id)) state

/-- The keys of these objects and of their metadata. -/
def Theirs (ids : List ObjectId) (key : Bytes) : Prop := ∃ id ∈ ids, key = Objects.object_key id ∨ key = metadata_key id

theorem removed_theirs {ids : List ObjectId} {key : Bytes} (theirs : Theirs ids key) (state : State) : (removed state ids)[key]? = none := by
  have stays : ∀ (ids : List ObjectId) (s : State), s[key]? = none → (removed s ids)[key]? = none := by
    intro ids
    induction ids with
    | nil => exact fun _ absent => absent
    | cons id ids ih =>
      intro s absent
      refine ih _ ?_
      rw [get_erase,get_erase,absent]
      simp
  induction ids generalizing state with
  | nil =>
    obtain ⟨id,member,-⟩ := theirs
    cases member
  | cons id ids ih =>
    obtain ⟨other,member,is⟩ := theirs
    rcases List.mem_cons.mp member with rfl | later
    · refine stays ids _ ?_
      rw [get_erase,get_erase]
      rcases is with rfl | rfl
      · simp
      · simp
    · exact ih ⟨other,later,is⟩ _

theorem removed_others {ids : List ObjectId} {key : Bytes} (others : ¬ Theirs ids key) (state : State) :
    (removed state ids)[key]? = state[key]? := by
  induction ids generalizing state with
  | nil => rfl
  | cons id ids ih =>
    have here : key ≠ Objects.object_key id ∧ key ≠ metadata_key id :=
      ⟨fun same => others ⟨id,by simp,.inl same⟩,fun same => others ⟨id,by simp,.inr same⟩⟩
    refine (ih (fun ⟨other,member,is⟩ => others ⟨other,by simp [member],is⟩) _).trans ?_
    rw [get_erase,if_neg (Ne.symm here.2),get_erase,if_neg (Ne.symm here.1)]

/-- No reference names one of these objects. -/
def Unnamed (state : State) (ids : List ObjectId) : Prop :=
  ∀ id ∈ ids, ∀ key, starts_with key REF_PREFIX = true → state[key]? ≠ some id.val

theorem theirs_object {ids : List ObjectId} {id : ObjectId} : Theirs ids (Objects.object_key id) ↔ id ∈ ids := by
  constructor
  · rintro ⟨other,member,same | same⟩
    · rw [object_key_injective same]
      exact member
    · exact absurd same (kinds_apart (by decide) (object_key_own id) (metadata_key_own other))
  · exact fun member => ⟨id,member,.inl rfl⟩

theorem theirs_metadata {ids : List ObjectId} {id : ObjectId} : Theirs ids (metadata_key id) ↔ id ∈ ids := by
  constructor
  · rintro ⟨other,member,same | same⟩
    · exact absurd same.symm (kinds_apart (by decide) (object_key_own other) (metadata_key_own id))
    · rw [metadata_key_injective same]
      exact member
  · exact fun member => ⟨id,member,.inr rfl⟩

theorem reference_not_theirs {ids : List ObjectId} {key : Bytes} (own : starts_with key REF_PREFIX = true) : ¬ Theirs ids key := by
  rintro ⟨id,-,rfl | rfl⟩
  · exact kinds_apart (by decide) (object_key_own id) own rfl
  · exact kinds_apart (by decide) (metadata_key_own id) own rfl

/-! ## What the collectors take -/

/-- The references that were collected miss none. -/
theorem collected_all {start references : List ObjectId} {entries : List (Bytes × Bytes)}
    (collected : collect_references start entries = .ok references) :
    (∀ id ∈ start, id ∈ references) ∧ ∀ entry ∈ entries, ∀ id : ObjectId, entry.2 = id.val → id ∈ references := by
  induction entries generalizing start with
  | nil =>
    cases collected
    exact ⟨fun _ member => member,by simp⟩
  | cons entry entries ih =>
    obtain ⟨key,value⟩ := entry
    obtain ⟨id,names,collected⟩ := bind_ok_iff.mp collected
    obtain ⟨early,late⟩ := ih collected
    refine ⟨fun other member => early other (List.mem_insert_of_mem member),?_⟩
    intro entry member other is
    rcases List.mem_cons.mp member with rfl | later
    · have same : id = other := Subtype.ext ((object_id_try_from.mp (ok_or_ok.mp names)).symm.trans is)
      rw [← same]
      exact early id List.mem_insert_self
    · exact late entry later other is

/-- What is not among the collected references is not named. -/
theorem unnamed_of_collected {state : State} {references ids : List ObjectId}
    (collected : collect_references [] (scan state REF_PREFIX) = .ok references) (others : ∀ id ∈ ids, id ∉ references) :
    Unnamed state ids := by
  intro id member key own found
  exact others id member ((collected_all collected).2 (key,id.val) (mem_scan.mpr ⟨own,found⟩) id rfl)

/-- The keys of objects that no reference names, no more than asked for. -/
theorem orphan_keys_ok {referenced : List ObjectId} {limit : Nat} {start keys : List Bytes} {objects : List (Bytes × Bytes)}
    (found : orphan_keys referenced limit start objects = .ok keys) (room : start.length < limit) :
    ∃ ids : List ObjectId, keys = start ++ ids.map Objects.object_key ∧ keys.length ≤ limit ∧
      (ids.map Objects.object_key).Sublist (objects.map Prod.fst) ∧ ∀ id ∈ ids, id ∉ referenced := by
  induction objects generalizing start with
  | nil =>
    cases found
    exact ⟨[],by simp,by omega,by simp,by simp⟩
  | cons entry objects ih =>
    obtain ⟨key,value⟩ := entry
    obtain ⟨id,keyed,found⟩ := bind_ok_iff.mp found
    obtain rfl := decode_object_key_ok.mp keyed
    split at found
    · rename_i orphan
      split at found
      · rename_i full
        cases found
        exact ⟨[id],by simp,by omega,by simp,by simpa using orphan⟩
      · rename_i open_still
        obtain ⟨ids,rfl,bound,part,others⟩ := ih found (by simp at open_still ⊢; omega)
        exact ⟨id :: ids,by simp,bound,by simpa using part,List.forall_mem_cons.mpr ⟨orphan,others⟩⟩
    · obtain ⟨ids,rfl,bound,part,others⟩ := ih found room
      exact ⟨ids,rfl,bound,part.trans (List.sublist_cons_self _ _),others⟩

/-- The object is recorded to expire no later than now. -/
def Expired (self : Store) (now_unix : Int64) (id : ObjectId) : Prop :=
  ∃ metadata expiry, self.metadata_of id = .ok metadata ∧ recorded_expiry metadata = .ok (some expiry) ∧ expiry ≤ now_unix

/-- The objects that have expired and that no reference names, no more than asked for. -/
theorem sweep_objects_ok {self : Store} {references : List ObjectId} {now_unix : Int64} {limit : Nat} {start sweep : Sweep}
    {objects : List (Bytes × Bytes)} (found : sweep_objects self references now_unix limit start objects = .ok sweep) :
    ∃ ids : List ObjectId, sweep.to_remove = start.to_remove ++ ids.map (fun id => (Objects.object_key id,id)) ∧
      (0 < limit → start.to_remove.length ≤ limit → sweep.to_remove.length ≤ limit) ∧
      (ids.map Objects.object_key).Sublist (objects.map Prod.fst) ∧ ∀ id ∈ ids, id ∉ references ∧ Expired self now_unix id := by
  induction objects generalizing start with
  | nil =>
    cases found
    exact ⟨[],by simp,fun _ bound => bound,by simp,by simp⟩
  | cons entry objects ih =>
    obtain ⟨key,value⟩ := entry
    obtain ⟨id,keyed,found⟩ := bind_ok_iff.mp found
    obtain rfl := decode_object_key_ok.mp keyed
    obtain ⟨metadata,read,found⟩ := bind_ok_iff.mp found
    obtain ⟨expires,recorded,found⟩ := bind_ok_iff.mp found
    have skipped : ∀ middle : Sweep, middle.to_remove = start.to_remove →
        sweep_objects self references now_unix limit middle objects = .ok sweep →
        ∃ ids : List ObjectId, sweep.to_remove = start.to_remove ++ ids.map (fun id => (Objects.object_key id,id)) ∧
          (0 < limit → start.to_remove.length ≤ limit → sweep.to_remove.length ≤ limit) ∧
          (ids.map Objects.object_key).Sublist (Objects.object_key id :: objects.map Prod.fst) ∧
          ∀ id ∈ ids, id ∉ references ∧ Expired self now_unix id := by
      intro middle same rest
      obtain ⟨ids,removes,bound,part,others⟩ := ih rest
      rw [same] at removes bound
      exact ⟨ids,removes,bound,part.trans (List.sublist_cons_self _ _),others⟩
    cases expires with
    | none => exact skipped start rfl found
    | some expiry =>
      dsimp only at found
      split at found
      · exact skipped start rfl found
      rename_i due
      split at found
      · exact skipped _ (by rfl) found
      rename_i orphan
      split at found
      · rename_i room
        obtain ⟨ids,removes,bound,part,others⟩ := ih found
        refine ⟨id :: ids,by simp [removes],?_,by simpa using part,?_⟩
        · intro limited few
          refine bound limited ?_
          simp
          omega
        · intro other member
          rcases List.mem_cons.mp member with rfl | later
          · exact ⟨orphan,metadata,expiry,read,recorded,Int64.not_lt.mp due⟩
          · exact others other later
      · exact skipped _ (by rfl) found

/-- These objects, each of them there and none of them named, were taken away with their metadata, and nothing else. -/
structure Taken (store t : Store) (ids : List ObjectId) : Prop where
  distinct : ids.Nodup
  stored : ∀ id ∈ ids, Exists store.state id
  unnamed : Unnamed store.state ids
  left : SameData (removed store.state ids) t.state

theorem taken_none {store t : Store} (same : t.state = store.state) : Taken store t [] := by
  refine ⟨.nil,by simp,by simp [Unnamed],?_⟩
  rw [same]
  exact .refl _

theorem get_object_some {store : Store} {id : ObjectId} {content : Bytes} (found : store.get_object id = .ok (some content)) :
    Exists store.state id := by
  unfold Store.get_object at found
  cases there : store.get (Objects.object_key id) with
  | none =>
    rw [there] at found
    cases found
  | some value => exact ⟨value,there⟩

section
variable [Hashes]

/-- An object under the hash of its content. -/
def objectEntry (content : Bytes) : Bytes × Bytes := (Objects.object_key (object_id content),spelledObject content)

/-- Objects are stored under their hashes, metadata are those of objects, and references name objects. -/
structure Linked (state : State) : Prop where
  objects : Holding OBJECT_PREFIX objectEntry (fun content => content.length < 2 ^ 64) state
  metadata : ∀ key value, starts_with key METADATA_PREFIX = true → state[key]? = some value →
    ∃ id metadata, key = metadata_key id ∧ Normal metadata ∧ encode_metadata metadata = .ok value ∧ Exists state id
  references : ∀ key value, starts_with key REF_PREFIX = true → state[key]? = some value →
    ∃ id : ObjectId, value = id.val ∧ Exists state id

theorem linked_empty : Linked ∅ := by
  refine ⟨holding_empty _ _ _,?_,?_⟩
  · intro key value _ found
    simp at found
  · intro key value _ found
    simp at found

theorem Linked.congr {s t : State} (linked : Linked s) (same : ∀ key, ObjectKey key → t[key]? = s[key]?) : Linked t := by
  have exist : ∀ id, Exists s id → Exists t id := by
    rintro id ⟨value,found⟩
    refine ⟨value,?_⟩
    rw [same _ (data_inside (object_key_own id))]
    exact found
  refine ⟨linked.objects.congr (fun key own => same key (data_inside own)),?_,?_⟩
  · intro key value own found
    rw [same key (metadata_inside own)] at found
    obtain ⟨id,metadata,keyed,normal,spelled,there⟩ := linked.metadata key value own found
    exact ⟨id,metadata,keyed,normal,spelled,exist id there⟩
  · intro key value own found
    rw [same key (reference_inside own)] at found
    obtain ⟨id,names,there⟩ := linked.references key value own found
    exact ⟨id,names,exist id there⟩

theorem Linked.same {s t : State} (linked : Linked s) (same : SameData s t) : Linked t :=
  linked.congr (fun key own => same key (object_apart own))

theorem Linked.put_object {state : State} (linked : Linked state) {content : Bytes} (fits : content.length < 2 ^ 64) :
    Linked (state.insert (Objects.object_key (object_id content)) (spelledObject content)) := by
  have own := object_key_own (object_id content)
  refine ⟨linked.objects.insert fits,?_,?_⟩
  · intro key value inside found
    rw [get_insert,if_neg (kinds_apart (by decide) own inside)] at found
    obtain ⟨id,metadata,keyed,normal,spelled,there⟩ := linked.metadata key value inside found
    exact ⟨id,metadata,keyed,normal,spelled,there.insert _ _⟩
  · intro key value inside found
    rw [get_insert,if_neg (kinds_apart (by decide) own inside)] at found
    obtain ⟨id,names,there⟩ := linked.references key value inside found
    exact ⟨id,names,there.insert _ _⟩

theorem Linked.put_metadata {state : State} (linked : Linked state) {id : ObjectId} {metadata : MetadataEntries} {encoded : Bytes}
    (normal : Normal metadata) (spelled : encode_metadata metadata = .ok encoded) (there : Exists state id) :
    Linked (state.insert (metadata_key id) encoded) := by
  have own := metadata_key_own id
  refine ⟨linked.objects.congr ?_,?_,?_⟩
  · intro key inside
    rw [get_insert,if_neg (kinds_apart (by decide) own inside)]
  · intro key value inside found
    rw [get_insert] at found
    split at found
    · rename_i here
      cases found
      exact ⟨id,metadata,here.symm,normal,spelled,there.insert _ _⟩
    · obtain ⟨other,entries,keyed,fine,written,exist⟩ := linked.metadata key value inside found
      exact ⟨other,entries,keyed,fine,written,exist.insert _ _⟩
  · intro key value inside found
    rw [get_insert,if_neg (kinds_apart (by decide) own inside)] at found
    obtain ⟨other,names,exist⟩ := linked.references key value inside found
    exact ⟨other,names,exist.insert _ _⟩

theorem Linked.link {state : State} (linked : Linked state) (ns name : Bytes) {id : ObjectId} (there : Exists state id) :
    Linked (state.insert (refKey ns name) id.val) := by
  have own := ref_key_own ns name
  refine ⟨linked.objects.congr ?_,?_,?_⟩
  · intro key inside
    rw [get_insert,if_neg (kinds_apart (by decide) own inside)]
  · intro key value inside found
    rw [get_insert,if_neg (kinds_apart (by decide) own inside)] at found
    obtain ⟨other,metadata,keyed,normal,spelled,exist⟩ := linked.metadata key value inside found
    exact ⟨other,metadata,keyed,normal,spelled,exist.insert _ _⟩
  · intro key value inside found
    rw [get_insert] at found
    split at found
    · cases found
      exact ⟨id,rfl,there.insert _ _⟩
    · obtain ⟨other,names,exist⟩ := linked.references key value inside found
      exact ⟨other,names,exist.insert _ _⟩

theorem Linked.remove {state : State} (linked : Linked state) {ids : List ObjectId} (unnamed : Unnamed state ids) :
    Linked (removed state ids) := by
  have stays : ∀ id, id ∉ ids → Exists state id → Exists (removed state ids) id := by
    rintro id other ⟨value,found⟩
    exact ⟨value,(removed_others (theirs_object.not.mpr other) state).trans found⟩
  have kept : ∀ key value, (removed state ids)[key]? = some value → ¬ Theirs ids key ∧ state[key]? = some value := by
    intro key value found
    by_cases theirs : Theirs ids key
    · rw [removed_theirs theirs] at found
      cases found
    · rw [removed_others theirs] at found
      exact ⟨theirs,found⟩
  refine ⟨?_,?_,?_⟩
  · intro key value own found
    exact linked.objects key value own (kept key value found).2
  · intro key value own found
    obtain ⟨others,found⟩ := kept key value found
    obtain ⟨id,metadata,rfl,normal,spelled,there⟩ := linked.metadata key value own found
    exact ⟨id,metadata,rfl,normal,spelled,stays id (theirs_metadata.not.mp others) there⟩
  · intro key value own found
    obtain ⟨-,found⟩ := kept key value found
    obtain ⟨id,rfl,there⟩ := linked.references key value own found
    exact ⟨id,rfl,stays id (fun member => unnamed id member key own found) there⟩

theorem Linked.unlink {state : State} (linked : Linked state) (ns name : Bytes) : Linked (state.erase (refKey ns name)) := by
  have own := ref_key_own ns name
  have stays : ∀ id, Exists state id → Exists (state.erase (refKey ns name)) id := by
    rintro id ⟨value,found⟩
    refine ⟨value,?_⟩
    rw [get_erase,if_neg (kinds_apart (by decide) own (object_key_own id))]
    exact found
  refine ⟨linked.objects.erase _,?_,?_⟩
  · intro key value inside found
    rw [get_erase,if_neg (kinds_apart (by decide) own inside)] at found
    obtain ⟨id,metadata,keyed,normal,spelled,there⟩ := linked.metadata key value inside found
    exact ⟨id,metadata,keyed,normal,spelled,stays id there⟩
  · intro key value inside found
    rw [get_erase] at found
    split at found
    · cases found
    · obtain ⟨id,names,there⟩ := linked.references key value inside found
      exact ⟨id,names,stays id there⟩

theorem remove_object_ok {io : Io} {id : ObjectId} {tx u : Transaction} {x : Unit}
    (done : remove_object io (Objects.object_key id) id tx = .ok x u) :
    u.view = (tx.view.erase (Objects.object_key id)).erase (metadata_key id) := by
  obtain ⟨_,middle,first,second⟩ := bind_ok.mp done
  rw [(delete_internal_ok (rethrow_ok.mp second)).1,(delete_internal_ok (rethrow_ok.mp first)).1]

theorem remove_swept_ok {io : Io} {ids : List ObjectId} {tx u : Transaction} {x : Unit}
    (done : remove_swept io (ids.map (fun id => (Objects.object_key id,id))) tx = .ok x u) : u.view = removed tx.view ids := by
  induction ids generalizing tx with
  | nil =>
    cases done
    rfl
  | cons id ids ih =>
    obtain ⟨_,middle,first,rest⟩ := bind_ok.mp done
    rw [ih rest,remove_object_ok first]
    rfl

/-- The keys of objects give the objects back. -/
theorem remove_orphans_eq (io : Io) (ids : List ObjectId) :
    remove_orphans io (ids.map Objects.object_key) = remove_swept io (ids.map (fun id => (Objects.object_key id,id))) := by
  induction ids with
  | nil => rfl
  | cons id ids ih =>
    show (do
      let read ← lift (decode_object_key (Objects.object_key id))
      remove_object io (Objects.object_key id) read
      remove_orphans io (ids.map Objects.object_key) : EStateM ObjectError Transaction Unit) = _
    rw [decode_object_key_ok.mpr rfl,ih]
    rfl

theorem remove_swept_confined (io : Io) (objects : List (Bytes × ObjectId)) : ConfinedView (fun _ => True) (remove_swept io objects) := by
  induction objects with
  | nil => exact confined_view_of_reads (reads_pure _)
  | cons object objects ih =>
    refine ConfinedView.bind ?_ (fun _ => ih)
    exact (delete_confined io trivial).rethrow.bind (fun _ => (delete_confined io trivial).rethrow)

theorem remove_object_stages {io : Io} (writes : io.WritesWhole) (key : Bytes) (id : ObjectId) : Stages (remove_object io key id) :=
  (delete_stages writes _).rethrow.bind (fun _ => (delete_stages writes _).rethrow)

theorem remove_orphans_stages {io : Io} (writes : io.WritesWhole) (keys : List Bytes) : Stages (remove_orphans io keys) := by
  induction keys with
  | nil => exact stages_of_reads (reads_pure _)
  | cons key keys ih =>
    exact (stages_of_reads (reads_lift _)).bind (fun id => (remove_object_stages writes key id).bind (fun _ => ih))

theorem remove_swept_stages {io : Io} (writes : io.WritesWhole) (objects : List (Bytes × ObjectId)) : Stages (remove_swept io objects) := by
  induction objects with
  | nil => exact stages_of_reads (reads_pure _)
  | cons object objects ih => exact (remove_object_stages writes _ _).bind (fun _ => ih)

/-- Objects that a scan finds and that no reference names are taken away in one transaction. -/
theorem taken_within {io : Io} {store t : Store} {x : Unit} {references ids : List ObjectId}
    (collected : collect_references [] (scan store.state REF_PREFIX) = .ok references) (others : ∀ id ∈ ids, id ∉ references)
    (part : (ids.map Objects.object_key).Sublist ((scan store.state OBJECT_PREFIX).map Prod.fst))
    (done : within .Store io (remove_swept io (ids.map (fun id => (Objects.object_key id,id)))) store = .ok x t) : Taken store t ids := by
  refine ⟨(part.nodup (scan_keys_nodup _ _)).of_map,?_,unnamed_of_collected collected others,?_⟩
  · intro id member
    obtain ⟨⟨key,value⟩,found,same⟩ := List.mem_map.mp (part.subset (List.mem_map.mpr ⟨id,member,rfl⟩))
    cases same
    exact ⟨value,(mem_scan.mp found).2⟩
  · obtain ⟨tx,u,begun,body,same⟩ := within_ok done
    rw [remove_swept_ok body,(begin_view begun).1] at same
    exact same

theorem gc_taken (io : Io) (limit : Nat) (store : Store) :
    ∃ ids, Taken store (after (gc_orphan_objects io limit) store) ids ∧ ids.length ≤ limit ∧
      ∀ report, returned (gc_orphan_objects io limit) store = .ok report → report.removed = ids.length := by
  unfold after returned
  cases result : gc_orphan_objects io limit store with
  | error e t =>
    refine ⟨[],taken_none ?_,by simp,by simp⟩
    unfold gc_orphan_objects at result
    rw [get_bind] at result
    rcases lift_bind_error.mp result with ⟨-,rfl⟩ | ⟨referenced,-,result⟩
    · rfl
    split at result
    · cases result
    rename_i some_asked
    rcases lift_bind_error.mp result with ⟨-,rfl⟩ | ⟨keys,found,result⟩
    · rfl
    obtain ⟨ids,rfl,-,-,-⟩ := orphan_keys_ok found (by simpa using Nat.pos_of_ne_zero some_asked)
    rw [List.nil_append,remove_orphans_eq] at result
    split at result
    · rcases bind_error.mp result with failed | ⟨_,_,-,result⟩
      · exact within_error (remove_swept_confined io _).carries failed
      · cases result
    · cases result
  | ok report t =>
    unfold gc_orphan_objects at result
    rw [get_bind] at result
    obtain ⟨referenced,collected,result⟩ := lift_bind_ok.mp result
    split at result
    · cases result
      exact ⟨[],taken_none rfl,by simp,by simp⟩
    rename_i some_asked
    obtain ⟨keys,found,result⟩ := lift_bind_ok.mp result
    obtain ⟨ids,rfl,bound,part,others⟩ := orphan_keys_ok found (by simpa using Nat.pos_of_ne_zero some_asked)
    rw [List.nil_append,List.length_map] at bound
    rw [List.nil_append,List.length_map,remove_orphans_eq] at result
    split at result
    · obtain ⟨_,_,done,result⟩ := bind_ok.mp result
      cases result
      refine ⟨ids,taken_within collected others part done,bound,?_⟩
      intro _ is
      cases is
      rfl
    · rename_i empty
      cases result
      refine ⟨[],taken_none rfl,by simp,?_⟩
      intro _ is
      cases is
      simpa using empty

theorem purge_taken (io : Io) (now_unix : Int64) (limit : Nat) (store : Store) :
    ∃ ids, Taken store (after (purge_expired_objects io now_unix limit) store) ids ∧ (0 < limit → ids.length ≤ limit) ∧
      (∀ id ∈ ids, Expired store now_unix id) ∧
      ∀ report, returned (purge_expired_objects io now_unix limit) store = .ok report → report.removed = ids.length := by
  unfold after returned
  cases result : purge_expired_objects io now_unix limit store with
  | error e t =>
    refine ⟨[],taken_none ?_,by simp,by simp,by simp⟩
    unfold purge_expired_objects at result
    rw [get_bind] at result
    rcases lift_bind_error.mp result with ⟨-,rfl⟩ | ⟨references,-,result⟩
    · rfl
    rcases lift_bind_error.mp result with ⟨-,rfl⟩ | ⟨sweep,-,result⟩
    · rfl
    split at result
    · rcases bind_error.mp result with failed | ⟨_,_,-,result⟩
      · exact within_error (remove_swept_confined io _).carries failed
      · cases result
    · cases result
  | ok report t =>
    unfold purge_expired_objects at result
    rw [get_bind] at result
    obtain ⟨references,collected,result⟩ := lift_bind_ok.mp result
    obtain ⟨sweep,found,result⟩ := lift_bind_ok.mp result
    obtain ⟨ids,removes,bound,part,others⟩ := sweep_objects_ok found
    rw [List.nil_append] at removes
    rw [removes] at result bound
    rw [List.length_map] at result bound
    split at result
    · obtain ⟨_,_,done,result⟩ := bind_ok.mp result
      cases result
      refine ⟨ids,taken_within collected (fun id member => (others id member).1) part done,fun limited => bound limited (by simp),
        fun id member => (others id member).2,?_⟩
      intro _ is
      cases is
      rfl
    · rename_i empty
      cases result
      refine ⟨[],taken_none rfl,by simp,by simp,?_⟩
      intro _ is
      cases is
      simpa using empty

theorem Linked.taken {store t : Store} {ids : List ObjectId} (linked : Linked store.state) (taken : Taken store t ids) : Linked t.state :=
  (linked.remove taken.unnamed).same taken.left

end

end VoodooStore
