import VoodooStore.CollectionRuns
import VoodooStore.Lib.Mapping

/-!
# Schema versions in use

Whoever creates and migrates a collection, its migrations are a chain from the
version that it was created with, in the order in which they were made, and its
definition is where the chain ends (`migrations_chain`). One whose commit is not
confirmed comes back beside the one that was made instead (`unconfirmed_migration_forks`).
-/
namespace VoodooStore
open Effects Reading Collections Mapping
set_option linter.unusedSimpArgs false

/-! ## Chains -/

/-- Each migration begins where the one before it ended, and goes up. -/
def Chain : UInt32 → List CollectionMigration → Prop
  | _, [] => True
  | version, m :: ms => m.from_version = version ∧ m.from_version < m.to_version ∧ Chain m.to_version ms

/-- The definition after some migrations. -/
def latestDefinition (definition : CollectionDefinition) (migrations : List CollectionMigration) : CollectionDefinition :=
  migrations.foldl (fun _ m => ⟨m.to_version,m.codec⟩) definition

@[simp] theorem latest_definition_snoc (definition : CollectionDefinition) (migrations : List CollectionMigration) (m : CollectionMigration) :
    latestDefinition definition (migrations ++ [m]) = ⟨m.to_version,m.codec⟩ := by
  simp [latestDefinition]

theorem Chain.snoc {definition : CollectionDefinition} {migrations : List CollectionMigration} {m : CollectionMigration}
    (chain : Chain definition.schema_version migrations) (starts : m.from_version = (latestDefinition definition migrations).schema_version)
    (rises : m.from_version < m.to_version) : Chain definition.schema_version (migrations ++ [m]) := by
  induction migrations generalizing definition with
  | nil => exact ⟨starts,rises,trivial⟩
  | cons first migrations ih =>
    obtain ⟨begins,onward,rest⟩ := chain
    exact ⟨begins,onward,@ih ⟨first.to_version,first.codec⟩ rest starts⟩

theorem Chain.rises {version : UInt32} {migrations : List CollectionMigration} (chain : Chain version migrations) :
    ∀ m ∈ migrations, version ≤ m.from_version ∧ m.from_version < m.to_version := by
  induction migrations generalizing version with
  | nil => simp
  | cons first migrations ih =>
    obtain ⟨begins,onward,rest⟩ := chain
    intro m member
    rcases List.mem_cons.mp member with rfl | later
    · exact ⟨UInt32.le_of_eq begins.symm,onward⟩
    · obtain ⟨above,up⟩ := ih rest m later
      refine ⟨?_,up⟩
      rw [← begins]
      exact UInt32.le_trans (UInt32.le_of_lt onward) above

theorem Chain.ordered {version : UInt32} {migrations : List CollectionMigration} (chain : Chain version migrations) :
    migrations.Pairwise (fun a b => a.from_version < b.from_version) := by
  induction migrations generalizing version with
  | nil => exact .nil
  | cons first migrations ih =>
    obtain ⟨-,onward,rest⟩ := chain
    refine .cons (fun m member => ?_) (ih rest)
    exact UInt32.lt_of_lt_of_le onward (rest.rises m member).1

/-- No two migrations of a chain begin with the same version. -/
theorem Chain.starts {version : UInt32} {migrations : List CollectionMigration} (chain : Chain version migrations) :
    (migrations.map CollectionMigration.from_version).Nodup :=
  List.pairwise_map.mpr (chain.ordered.imp (fun below => UInt32.ne_of_lt below))

theorem Chain.one {version : UInt32} {migrations : List CollectionMigration} (chain : Chain version migrations) {a b : CollectionMigration}
    (first : a ∈ migrations) (second : b ∈ migrations) (same : a.from_version = b.from_version) : a = b :=
  List.inj_on_of_nodup_map chain.starts first second same

/-- The versions of a chain go up. -/
theorem Chain.versions {version : UInt32} {migrations : List CollectionMigration} (chain : Chain version migrations) :
    (version :: migrations.map CollectionMigration.to_version).Pairwise (· < ·) := by
  induction migrations generalizing version with
  | nil => simp
  | cons first migrations ih =>
    obtain ⟨begins,onward,rest⟩ := chain
    have later := ih rest
    rw [List.map_cons]
    refine .cons (fun v member => ?_) later
    rw [begins] at onward
    rcases List.mem_cons.mp member with rfl | above
    · exact onward
    · exact UInt32.lt_trans onward (List.rel_of_pairwise_cons later above)

/-! ## What the map says of a schema -/

/-- The keys of definitions and of migrations. -/
def SchemaKey (key : Bytes) : Prop := META_PREFIX <+: key ∨ MIGRATION_PREFIX <+: key

theorem schema_key_own {key : Bytes} (own : SchemaKey key) : CollectionKey key := by
  rcases own with inside | inside
  · exact under_collections (by decide) inside
  · exact under_collections (by decide) inside

/-- The maps agree on schemas. -/
def SameSchemas (s t : State) : Prop := ∀ key, SchemaKey key → t[key]? = s[key]?

theorem SameSchemas.data (s : State) : SameSchemas s (data s) := fun _ own => data_outside (collection_key_outside (schema_key_own own))

theorem SameSchemas.symm {s t : State} (same : SameSchemas s t) : SameSchemas t s := fun key own => (same key own).symm

theorem SameSchemas.trans {s t u : State} (first : SameSchemas s t) (second : SameSchemas t u) : SameSchemas s u :=
  fun key own => (second key own).trans (first key own)

/-- The other keys of collections. -/
theorem schema_key_apart {front key other : Bytes} (kind : front ∈ [RECORD_PREFIX,INDEX_META_PREFIX,INDEX_PREFIX]) (inside : front <+: key)
    (own : SchemaKey other) : key ≠ other := by
  rcases own with schema | schema
  · refine key_kinds_apart ?_ inside schema
    fin_cases kind <;> decide
  · refine key_kinds_apart ?_ inside schema
    fin_cases kind <;> decide

theorem SameSchemas.insert {s t : State} (same : SameSchemas s t) {front key : Bytes}
    (kind : front ∈ [RECORD_PREFIX,INDEX_META_PREFIX,INDEX_PREFIX]) (inside : front <+: key) (value : Bytes) :
    SameSchemas s (t.insert key value) := by
  intro other own
  rw [get_insert,if_neg (schema_key_apart kind inside own)]
  exact same other own

theorem SameSchemas.erase {s t : State} (same : SameSchemas s t) {front key : Bytes}
    (kind : front ∈ [RECORD_PREFIX,INDEX_META_PREFIX,INDEX_PREFIX]) (inside : front <+: key) : SameSchemas s (t.erase key) := by
  intro other own
  rw [get_erase,if_neg (schema_key_apart kind inside own)]
  exact same other own

/-- What the map says of a collection that was created and migrated so. -/
structure Versioned (state : State) (name : Bytes) (created : List CollectionDefinition) (migrated : List CollectionMigration) : Prop where
  current : (created = [] ∧ migrated = [] ∧ state[metaKey name]? = none) ∨ ∃ definition, created = [definition] ∧
    Chain definition.schema_version migrated ∧ (latestDefinition definition migrated).codec.length < 2 ^ 32 ∧
    state[metaKey name]? = some (latestDefinition definition migrated).spelling
  coded : ∀ m ∈ migrated, m.codec.length < 2 ^ 32
  entries : ∀ key value, migrationSpace name <+: key →
    (state[key]? = some value ↔ ∃ m ∈ migrated, key = migrationKey name m.from_version m.to_version ∧ value = m.spelling)

theorem meta_key_schema (name : Bytes) : SchemaKey (metaKey name) := .inl (List.prefix_append _ _)

theorem migration_space_schema {name key : Bytes} (inside : migrationSpace name <+: key) : SchemaKey key :=
  .inr ((List.prefix_append _ _).trans inside)

theorem Versioned.congr {s t : State} {name : Bytes} {created : List CollectionDefinition} {migrated : List CollectionMigration}
    (versioned : Versioned s name created migrated) (same : SameSchemas s t) : Versioned t name created migrated := by
  refine ⟨?_,versioned.coded,?_⟩
  · rw [same _ (meta_key_schema name)]
    exact versioned.current
  · intro key value inside
    rw [same key (migration_space_schema inside)]
    exact versioned.entries key value inside

theorem migration_space_front {name other : Bytes} {from_version to_version : UInt32} (short : name.length < 2 ^ 32) (fits : other.length < 2 ^ 32) :
    migrationSpace name <+: migrationKey other from_version to_version ↔ name = other := by
  have whole : migrationKey other from_version to_version =
      migrationSpace other ++ Tuples.tuple 4 [from_version.to_be_bytes,to_version.to_be_bytes] := by
    simp [migrationKey,migrationSpace,Tuples.tuple]
  have front := @Tuples.tuple_front 4 [] (Tuples.tuple 4 [from_version.to_be_bytes,to_version.to_be_bytes]) [name] [other] rfl
    (tuple_fits (by simpa using short)) (tuple_fits (by simpa using fits))
  rw [List.append_nil] at front
  rw [whole,migrationSpace,migrationSpace,List.append_assoc,List.prefix_append_right_inj,front]
  simp

theorem migration_key_injective {name : Bytes} (short : name.length < 2 ^ 32) {a b c d : UInt32}
    (same : migrationKey name a b = migrationKey name c d) : a = c ∧ b = d := by
  have tuples := List.append_cancel_left same
  have parts := @Tuples.tuple_injective 4 [] [] [name,a.to_be_bytes,b.to_be_bytes] [name,c.to_be_bytes,d.to_be_bytes] rfl
    (tuple_fits (by simpa using short)) (tuple_fits (by simpa using short)) (by simpa using tuples)
  have bytes : a.to_be_bytes = c.to_be_bytes ∧ b.to_be_bytes = d.to_be_bytes := by simpa using parts.1
  exact ⟨u32_to_be_injective bytes.1,u32_to_be_injective bytes.2⟩

theorem versioned_empty (name : Bytes) : Versioned ∅ name [] [] := by
  refine ⟨.inl ⟨rfl,rfl,by simp⟩,by simp,?_⟩
  intro key value _
  simp

section
variable {s : State} {name : Bytes} {created : List CollectionDefinition} {migrated : List CollectionMigration}

/-- A collection that is not there is created. -/
theorem Versioned.create (versioned : Versioned s name created migrated) (missing : s[metaKey name]? = none) {definition : CollectionDefinition}
    (fits : definition.codec.length < 2 ^ 32) :
    Versioned (s.insert (metaKey name) definition.spelling) name (created ++ [definition]) migrated := by
  obtain ⟨rfl,rfl,-⟩ | ⟨before,-,-,-,found⟩ := versioned.current
  · refine ⟨.inr ⟨definition,rfl,trivial,fits,?_⟩,versioned.coded,?_⟩
    · rw [get_insert,if_pos rfl]
      rfl
    · intro key value inside
      have own : MIGRATION_PREFIX <+: key := (List.prefix_append _ _).trans inside
      have apart := @insert_kind_apart s _ _ (metaKey name) key definition.spelling (List.prefix_append META_PREFIX _) own (by decide)
      rw [apart]
      exact versioned.entries key value inside
  · rw [found] at missing
    cases missing

/-- The schema goes on to another version. -/
theorem Versioned.migrate (versioned : Versioned s name created migrated) (short : name.length < 2 ^ 32) {definition : CollectionDefinition}
    (coded : definition.codec.length < 2 ^ 32) (found : s[metaKey name]? = some definition.spelling) {next_version : UInt32} {codec : Bytes}
    (rises : definition.schema_version < next_version) (fits : codec.length < 2 ^ 32) :
    Versioned ((s.insert (metaKey name) (CollectionDefinition.spelling ⟨next_version,codec⟩)).insert
      (migrationKey name definition.schema_version next_version) (CollectionMigration.spelling ⟨definition.schema_version,next_version,codec⟩))
      name created (migrated ++ [⟨definition.schema_version,next_version,codec⟩]) := by
  obtain ⟨-,-,missing⟩ | ⟨first,rfl,chain,shorter,there⟩ := versioned.current
  · rw [missing] at found
    cases found
  -- what is there is where the chain ends
  have ends : definition = latestDefinition first migrated := by
    have same : definition.spelling = (latestDefinition first migrated).spelling := Option.some.inj (found.symm.trans there)
    have reads := decode_definition_spelling coded
    rw [same,decode_definition_spelling shorter] at reads
    exact (Except.ok.inj reads).symm
  have apart : migrationKey name definition.schema_version next_version ≠ metaKey name :=
    key_kinds_apart (by decide) (List.prefix_append MIGRATION_PREFIX _) (List.prefix_append META_PREFIX _)
  have onward : Chain first.schema_version (migrated ++ [⟨definition.schema_version,next_version,codec⟩]) := chain.snoc (by rw [ends]) rises
  refine ⟨.inr ⟨first,rfl,onward,by rw [latest_definition_snoc]; exact fits,?_⟩,?_,?_⟩
  · rw [latest_definition_snoc,get_insert,if_neg apart,get_insert,if_pos rfl]
  · intro m member
    rcases List.mem_append.mp member with before | last
    · exact versioned.coded m before
    · rw [List.mem_singleton.mp last]
      exact fits
  · intro key value inside
    have own : MIGRATION_PREFIX <+: key := (List.prefix_append _ _).trans inside
    rw [get_insert]
    split
    · rename_i same
      constructor
      · rintro ⟨⟩
        exact ⟨_,List.mem_append_right _ (List.mem_singleton.mpr rfl),same.symm,rfl⟩
      · rintro ⟨m,member,named,rfl⟩
        rw [← same] at named
        obtain ⟨starts,stops⟩ := migration_key_injective short named
        rcases List.mem_append.mp member with before | last
        · -- no migration before begins where the chain ends
          have below := (List.pairwise_append.mp onward.ordered).2.2 m before _ (List.mem_singleton.mpr rfl)
          rw [← starts] at below
          exact absurd below (UInt32.lt_irrefl _)
        · rw [List.mem_singleton.mp last]
    · rename_i other
      have meta_apart : (s.insert (metaKey name) (CollectionDefinition.spelling ⟨next_version,codec⟩))[key]? = s[key]? :=
        insert_kind_apart _ (List.prefix_append META_PREFIX _) own (by decide)
      rw [meta_apart,versioned.entries key value inside]
      constructor
      · rintro ⟨m,member,named,spelled⟩
        exact ⟨m,List.mem_append_left _ member,named,spelled⟩
      · rintro ⟨m,member,named,spelled⟩
        rcases List.mem_append.mp member with before | last
        · exact ⟨m,before,named,spelled⟩
        · rw [List.mem_singleton.mp last] at named
          exact absurd named.symm other

end

/-! ## What a reader finds -/

/-- By the version a migration begins with, and then by the one it ends with. -/
def ByVersions (a b : CollectionMigration) : Prop :=
  a.from_version < b.from_version ∨ a.from_version = b.from_version ∧ a.to_version ≤ b.to_version

instance : DecidableRel ByVersions := fun a b => inferInstanceAs (Decidable (a.from_version < b.from_version ∨ _))

theorem ByVersions.trans {a b c : CollectionMigration} (first : ByVersions a b) (second : ByVersions b c) : ByVersions a c := by
  unfold ByVersions at *
  simp only [UInt32.lt_iff_toNat_lt,UInt32.le_iff_toNat_le,← UInt32.toNat_inj] at *
  omega

theorem ByVersions.begins {a b : CollectionMigration} (first : ByVersions a b) (second : ByVersions b a) : a.from_version = b.from_version := by
  unfold ByVersions at *
  simp only [UInt32.lt_iff_toNat_lt,UInt32.le_iff_toNat_le,← UInt32.toNat_inj] at *
  omega

theorem ByVersions.total (a b : CollectionMigration) : ByVersions a b ∨ ByVersions b a := by
  unfold ByVersions
  simp only [UInt32.lt_iff_toNat_lt,UInt32.le_iff_toNat_le,← UInt32.toNat_inj]
  omega

/-- A chain is in the order in which migrations are listed, whatever order they are read in. -/
theorem Chain.listed {version : UInt32} {migrated found : List CollectionMigration} (chain : Chain version migrated)
    (same : found.Perm migrated) : found.mergeSort (fun a b => ByVersions a b) = migrated := by
  have sorted : (found.mergeSort (fun a b => ByVersions a b)).Pairwise (fun a b => decide (ByVersions a b) = true) := by
    refine List.pairwise_mergeSort ?_ ?_ found
    · intro a b c first second
      exact decide_eq_true ((of_decide_eq_true first).trans (of_decide_eq_true second))
    · intro a b
      simpa using ByVersions.total a b
  have both := (List.mergeSort_perm found (fun a b => ByVersions a b)).trans same
  refine both.eq_of_pairwise ?_ sorted (chain.ordered.imp (fun below => decide_eq_true (.inl below)))
  intro a b first second low high
  have inside : a ∈ migrated := both.mem_iff.mp first
  refine chain.one inside second ?_
  exact (of_decide_eq_true low).begins (of_decide_eq_true high)

section
variable {store : Store} {name : Bytes} {created : List CollectionDefinition} {migrated : List CollectionMigration}

theorem Versioned.rises (versioned : Versioned store.state name created migrated) : ∃ version, Chain version migrated := by
  obtain ⟨-,rfl,-⟩ | ⟨definition,-,chain,-⟩ := versioned.current
  · exact ⟨0,trivial⟩
  · exact ⟨_,chain⟩

/-- The code lists the migrations that were made, in their order. -/
theorem Versioned.migrations (versioned : Versioned store.state name created migrated) (short : name.length < 2 ^ 32) :
    store.collection_migrations name = .ok migrated := by
  obtain ⟨version,chain⟩ := versioned.rises
  have spelled : ∀ m ∈ migrated, decode_collection_migration m.spelling = .ok m :=
    fun m member => decode_migration_spelling ⟨versioned.coded m member,(chain.rises m member).2⟩
  have owned : ∀ entry ∈ scan store.state (migrationSpace name), ∃ m, (m ∈ migrated ∧ entry.1 = migrationKey name m.from_version m.to_version) ∧
      decode_collection_migration entry.2 = .ok m := by
    rintro ⟨key,value⟩ member
    obtain ⟨inside,found⟩ := mem_scan.mp member
    obtain ⟨m,listed,rfl,rfl⟩ := (versioned.entries key value ((starts_with_iff _ _).mp inside)).mp found
    exact ⟨m,⟨listed,rfl⟩,spelled m listed⟩
  obtain ⟨found,read⟩ := mapM_total (fun entry member => (owned entry member).imp (fun _ facts => facts.2))
  have pairs := mapM_forall read
  have reads : ∀ entry ∈ scan store.state (migrationSpace name), ∀ m, decode_collection_migration entry.2 = .ok m →
      m ∈ migrated ∧ entry.1 = migrationKey name m.from_version m.to_version := by
    intro entry member m decoded
    obtain ⟨other,facts,again⟩ := owned entry member
    cases again.symm.trans decoded
    exact facts
  obtain ⟨keys,sources⟩ := @forall_mapped _ _ _ _ _ _ Prod.fst (fun m : CollectionMigration => migrationKey name m.from_version m.to_version) pairs
    (fun entry member m decoded => (reads entry member m decoded).2)
  have once : found.Nodup := by
    have distinct := scan_keys_nodup store.state (migrationSpace name)
    rw [keys] at distinct
    exact distinct.of_map
  have same : found.Perm migrated := by
    refine (List.perm_ext_iff_of_nodup once chain.starts.of_map).mpr (fun m => ?_)
    constructor
    · intro member
      obtain ⟨entry,inside,decoded⟩ := sources m member
      exact (reads entry inside m decoded).1
    · intro member
      have own : migrationSpace name <+: migrationKey name m.from_version m.to_version := (migration_space_front short short).mpr rfl
      have there := (versioned.entries (migrationKey name m.from_version m.to_version) m.spelling own).mpr ⟨m,member,rfl,rfl⟩
      obtain ⟨other,inside,decoded⟩ := forall_reached pairs _ (mem_scan.mpr ⟨(starts_with_iff _ _).mpr own,there⟩)
      cases (spelled m member).symm.trans decoded
      exact inside
  refine bind_ok_iff.mpr ⟨_,migration_prefix_ok.mpr ⟨short,rfl⟩,bind_ok_iff.mpr ⟨found,read,?_⟩⟩
  exact congrArg Except.ok (chain.listed same)

/-- The definition is where the chain ends. -/
theorem Versioned.definition (versioned : Versioned store.state name created migrated) (short : name.length < 2 ^ 32) :
    store.collection_definition name = .ok (created.head?.map (fun definition => latestDefinition definition migrated)) := by
  refine bind_ok_iff.mpr ⟨_,meta_key_ok.mpr ⟨short,rfl⟩,?_⟩
  obtain ⟨rfl,rfl,missing⟩ | ⟨definition,rfl,chain,fits,found⟩ := versioned.current
  · have read : store.get (metaKey name) = none := missing
    rw [read]
    rfl
  · have read : store.get (metaKey name) = some (latestDefinition definition migrated).spelling := found
    rw [read,Option.mapM_some,decode_definition_spelling fits]
    rfl

end

/-! ## Who creates and migrates -/

/-- The definition that the call created the collection with. -/
def creation (name : Bytes) : Happened CollectionError CollectionCall CollectionTxCall CollectionReply → Option CollectionDefinition
  | .Returned (.CreateCollection _ created definition) (.ok (.Answered true)) => if created = name then some definition else none
  | _ => none

/-- The migration that the call made. -/
def migration (name : Bytes) : Happened CollectionError CollectionCall CollectionTxCall CollectionReply → Option CollectionMigration
  | .Returned (.MigrateCollectionSchema _ migrated expected_version next_version codec) (.ok (.Answered true)) =>
    if migrated = name then some ⟨expected_version,next_version,codec⟩ else none
  | _ => none

def creations (name : Bytes) (log : List (Happened CollectionError CollectionCall CollectionTxCall CollectionReply)) : List CollectionDefinition :=
  log.filterMap (creation name)

def migrations (name : Bytes) (log : List (Happened CollectionError CollectionCall CollectionTxCall CollectionReply)) : List CollectionMigration :=
  log.filterMap (migration name)

theorem filter_map_snoc {α β : Type} (f : α → Option β) (xs : List α) (x : α) : (xs ++ [x]).filterMap f = xs.filterMap f ++ (f x).toList := by
  rw [List.filterMap_append]
  cases result : f x with
  | none => rw [List.filterMap_cons_none result]; rfl
  | some y => rw [List.filterMap_cons_some result]; rfl

theorem creations_snoc (name : Bytes) (log : List (Happened CollectionError CollectionCall CollectionTxCall CollectionReply))
    (event : Happened CollectionError CollectionCall CollectionTxCall CollectionReply) :
    creations name (log ++ [event]) = creations name log ++ (creation name event).toList := filter_map_snoc _ log event

theorem migrations_snoc (name : Bytes) (log : List (Happened CollectionError CollectionCall CollectionTxCall CollectionReply))
    (event : Happened CollectionError CollectionCall CollectionTxCall CollectionReply) :
    migrations name (log ++ [event]) = migrations name log ++ (migration name event).toList := filter_map_snoc _ log event

@[simp] theorem migration_of_create (name : Bytes) (io : Io) (created : Bytes) (definition : CollectionDefinition)
    (result : Except CollectionError CollectionReply) : migration name (.Returned (.CreateCollection io created definition) result) = none := rfl

@[simp] theorem creation_of_migrate (name : Bytes) (io : Io) (migrated : Bytes) (expected_version next_version : UInt32) (codec : Bytes)
    (result : Except CollectionError CollectionReply) :
    creation name (.Returned (.MigrateCollectionSchema io migrated expected_version next_version codec) result) = none := rfl

/-- The map says of each collection that it was created and migrated as the calls have done. -/
structure Schemas (state : State) (log : List (Happened CollectionError CollectionCall CollectionTxCall CollectionReply)) : Prop where
  versioned : ∀ name : Bytes, name.length < 2 ^ 32 → Versioned state name (creations name log) (migrations name log)
  short : ∀ name, creations name log ≠ [] → name.length < 2 ^ 32

theorem schemas_empty : Schemas ∅ [] := ⟨fun name _ => versioned_empty name,by simp [creations]⟩

section
variable {s t : State} {log : List (Happened CollectionError CollectionCall CollectionTxCall CollectionReply)}
  {event : Happened CollectionError CollectionCall CollectionTxCall CollectionReply}

theorem Schemas.congr (schemas : Schemas s log) (same : SameSchemas s t) : Schemas t log :=
  ⟨fun name short => (schemas.versioned name short).congr same,schemas.short⟩

/-- What happens is no change of a schema. -/
theorem Schemas.other (schemas : Schemas s log) (uncreated : ∀ name, creation name event = none) (unmigrated : ∀ name, migration name event = none) :
    Schemas s (log ++ [event]) := by
  have created (name : Bytes) : creations name (log ++ [event]) = creations name log := by simp [creations_snoc,uncreated]
  have migrated (name : Bytes) : migrations name (log ++ [event]) = migrations name log := by simp [migrations_snoc,unmigrated]
  constructor
  · intro name short
    rw [created,migrated]
    exact schemas.versioned name short
  · intro name
    rw [created]
    exact schemas.short name

/-- A write to the schema of another collection. -/
theorem Versioned.elsewhere {name other : Bytes} {created : List CollectionDefinition} {migrated : List CollectionMigration}
    (versioned : Versioned s name created migrated) (short : name.length < 2 ^ 32) (fits : other.length < 2 ^ 32) (different : other ≠ name)
    (value : Bytes) : Versioned (s.insert (metaKey other) value) name created migrated ∧ ∀ from_version to_version,
      Versioned (s.insert (migrationKey other from_version to_version) value) name created migrated := by
  constructor
  · refine ⟨?_,versioned.coded,?_⟩
    · rw [get_insert,if_neg (fun same => different (meta_key_injective fits short same))]
      exact versioned.current
    · intro key found inside
      have own : MIGRATION_PREFIX <+: key := (List.prefix_append _ _).trans inside
      have apart : (s.insert (metaKey other) value)[key]? = s[key]? :=
        insert_kind_apart value (List.prefix_append META_PREFIX _) own (by decide)
      rw [apart]
      exact versioned.entries key found inside
  · intro from_version to_version
    refine ⟨?_,versioned.coded,?_⟩
    · have apart : (s.insert (migrationKey other from_version to_version) value)[metaKey name]? = s[metaKey name]? :=
        insert_kind_apart value (List.prefix_append MIGRATION_PREFIX _) (List.prefix_append META_PREFIX _) (by decide)
      rw [apart]
      exact versioned.current
    · intro key found inside
      rw [get_insert,if_neg]
      · exact versioned.entries key found inside
      · rintro rfl
        exact different ((migration_space_front short fits).mp inside).symm

theorem Schemas.create (schemas : Schemas s log) {io : Io} {name : Bytes} {definition : CollectionDefinition} {created : Bool}
    (done : createIn name definition s = .ok created t) :
    Schemas t (log ++ [Happened.Returned (.CreateCollection io name definition) (.ok (.Answered created))]) := by
  rcases create_in_ok done with ⟨rfl,rfl⟩ | ⟨rfl,-,short,missing,fits,rfl⟩
  · exact schemas.other (fun _ => rfl) (fun _ => rfl)
  · constructor
    · intro other size
      by_cases same : name = other
      · subst same
        have made := (schemas.versioned name short).create missing fits
        simpa [creations_snoc,migrations_snoc,creation,migration] using made
      · have kept := ((schemas.versioned other size).elsewhere size short same definition.spelling).1
        simpa [creations_snoc,migrations_snoc,creation,migration,same] using kept
    · intro other there
      by_cases same : name = other
      · rw [← same]
        exact short
      · refine schemas.short other ?_
        simpa [creations_snoc,creation,same] using there

theorem Schemas.migrate (schemas : Schemas s log) {io : Io} {name codec : Bytes} {expected_version next_version : UInt32} {migrated : Bool}
    (done : migrateIn name expected_version next_version codec s = .ok migrated t) :
    Schemas t (log ++ [Happened.Returned (.MigrateCollectionSchema io name expected_version next_version codec) (.ok (.Answered migrated))]) := by
  obtain ⟨definition,short,coded,found,⟨rfl,-,rfl⟩ | ⟨rfl,rfl,rises,fits,rfl⟩⟩ := migrate_in_ok done
  · exact schemas.other (fun _ => rfl) (fun _ => rfl)
  · constructor
    · intro other size
      by_cases same : name = other
      · subst same
        have made := (schemas.versioned name short).migrate short coded found rises fits
        simpa [creations_snoc,migrations_snoc,creation,migration] using made
      · have first := ((schemas.versioned other size).elsewhere size short same (CollectionDefinition.spelling ⟨next_version,codec⟩)).1
        have kept := (first.elsewhere size short same
          (CollectionMigration.spelling ⟨definition.schema_version,next_version,codec⟩)).2 definition.schema_version next_version
        simpa [creations_snoc,migrations_snoc,creation,migration,same] using kept
    · intro other there
      refine schemas.short other ?_
      simpa [creations_snoc] using there

end

section
variable [Hashes] {seen : State}

/-! ## Calls on records change no schema -/

theorem delete_index_schemas (io : Io) (collection primary_key : Bytes) (indexes : List IndexValue) :
    KeepsView (SameSchemas seen) (delete_index_entries io collection primary_key indexes) := by
  induction indexes with
  | nil => exact keeps_view_of_reads (reads_pure _)
  | cons index indexes ih =>
    refine .lifted (fun key made => ?_)
    obtain ⟨-,rfl⟩ := index_entry_key_ok.mp made
    have erases := delete_keeps io (indexKey collection index.index index.value primary_key)
      (fun s (same : SameSchemas seen s) => same.erase (by decide) (List.prefix_append INDEX_PREFIX _))
    exact erases.rethrow.bind (fun _ => ih)

theorem put_index_schemas (io : Io) (collection primary_key : Bytes) (indexes : List IndexValue) :
    KeepsView (SameSchemas seen) (put_index_entries io collection primary_key indexes) := by
  induction indexes with
  | nil => exact keeps_view_of_reads (reads_pure _)
  | cons index indexes ih =>
    refine .lifted (fun key made => ?_)
    obtain ⟨-,rfl⟩ := index_entry_key_ok.mp made
    have inserts := put_keeps io (indexKey collection index.index index.value primary_key) primary_key
      (fun s (same : SameSchemas seen s) => same.insert (by decide) (List.prefix_append INDEX_PREFIX _) primary_key)
    exact inserts.rethrow.bind (fun _ => ih)

theorem upsert_record_schemas (io : Io) (collection primary_key value : Bytes) (indexes : List IndexValue) :
    KeepsView (SameSchemas seen) (upsert_record io collection primary_key value indexes) := by
  refine (keeps_view_of_reads reads_get).bind (fun tx => (keeps_view_of_reads (reads_lift _)).bind (fun _ => ?_))
  split
  · exact keeps_view_of_reads (reads_throw _)
  refine .lifted (fun key made => ?_)
  obtain ⟨-,rfl⟩ := record_key_ok.mp made
  refine (keeps_view_of_reads reads_get).bind (fun tx => (keeps_view_of_reads (reads_lift _)).bind (fun existing => ?_))
  refine (keeps_view_of_reads reads_get).bind (fun tx => (keeps_view_of_reads (reads_lift _)).bind (fun _ => ?_))
  refine (delete_index_schemas io collection primary_key _).bind (fun _ => (keeps_view_of_reads (reads_lift _)).bind (fun encoded => ?_))
  have inserts := put_keeps io (recordKey collection primary_key) encoded
    (fun s (same : SameSchemas seen s) => same.insert (by decide) (List.prefix_append RECORD_PREFIX _) encoded)
  exact inserts.rethrow.bind (fun _ => put_index_schemas io collection primary_key indexes)

theorem delete_record_schemas (io : Io) (collection primary_key : Bytes) :
    KeepsView (SameSchemas seen) (delete_record io collection primary_key) := by
  refine .lifted (fun key made => ?_)
  obtain ⟨-,rfl⟩ := record_key_ok.mp made
  refine (keeps_view_of_reads reads_get).bind (fun tx => (keeps_view_of_reads (reads_lift _)).bind (fun existing => ?_))
  cases existing with
  | none => exact keeps_view_of_reads (reads_pure _)
  | some existing =>
    have erases := delete_keeps io (recordKey collection primary_key)
      (fun s (same : SameSchemas seen s) => same.erase (by decide) (List.prefix_append RECORD_PREFIX _))
    refine erases.rethrow.bind (fun _ => ?_)
    exact (delete_index_schemas io collection primary_key existing.indexes).bind (fun _ => keeps_view_of_reads (reads_pure true))

theorem collection_tx_schemas (call : CollectionTxCall) : KeepsView (SameSchemas seen) (collections.on_tx call) := by
  cases call with
  | UpsertRecord io collection primary_key value indexes =>
    exact (upsert_record_schemas io collection primary_key value indexes).bind (fun _ => keeps_view_of_reads (reads_pure CollectionReply.Done))
  | DeleteRecord io collection primary_key =>
    exact (delete_record_schemas io collection primary_key).bind (fun _ => keeps_view_of_reads (reads_pure _))

omit [Hashes] in
theorem SameSchemas.apart {s t : State} (same : SameData s t) (agrees : SameSchemas seen s) : SameSchemas seen t := by
  intro key own
  rw [same key (collection_key_outside (schema_key_own own))]
  exact agrees key own

omit [Hashes] in
theorem SameSchemas.of_data (seen s : State) : SameSchemas seen (VoodooStore.data s) ↔ SameSchemas seen s :=
  ⟨fun same => same.trans (SameSchemas.data s).symm,fun same => same.trans (SameSchemas.data s)⟩

omit [Hashes] in
theorem SameSchemas.define {s t : State} (same : SameSchemas seen s) {collection : Bytes} {definition : IndexDefinition} {defined : Bool}
    (done : defineIn collection definition s = .ok defined t) : SameSchemas seen t := by
  rcases define_in_ok done with rfl | ⟨-,-,-,-,-,rfl⟩
  · exact same
  · exact same.insert (by decide) (List.prefix_append INDEX_META_PREFIX _) _

/-! ## Each move -/

/-- Others write elsewhere. -/
def schemaTerms : Terms CollectionError CollectionCall CollectionTxCall CollectionReply :=
  .plain SchemaKey (fun call => call.io.Durable) (fun call => call.io.Durable)

/-- A call that answers has answered as it does on the map. -/
theorem answered {x : EStateM CollectionError Store Bool} {f : EStateM CollectionError State Bool} {excused : CollectionError → Prop}
    {call : CollectionCall} {store : Store} {log : List (Happened CollectionError CollectionCall CollectionTxCall CollectionReply)}
    (atomic : Atomic x) (mirrors : Mirrors Store.data excused x f) (schemas : Schemas store.state log)
    (refused : ∀ name e, creation name (.Returned call (.error e)) = none ∧ migration name (.Returned call (.error e)) = none)
    (done : ∀ s t answer, f s = .ok answer t → Schemas s log → Schemas t (log ++ [Happened.Returned call (.ok (.Answered answer))])) :
    Schemas (after (do return CollectionReply.Answered (← x)) store).state
      (log ++ [Happened.Returned call (returned (do return CollectionReply.Answered (← x)) store)]) := by
  unfold after returned
  cases result : x store with
  | ok answer t =>
    rw [bind_of_ok result]
    exact (done _ _ answer (mirrors.ok result) (schemas.congr (.data _))).congr (SameSchemas.data _).symm
  | error e t =>
    rw [bind_of_error result]
    show Schemas t.state _
    rw [atomic.keeps store e t result]
    exact schemas.other (fun name => (refused name e).1) (fun name => (refused name e).2)

theorem schemas_preserved : Preserved collections schemaTerms
    (fun state view log => Schemas state log ∧ ∀ seen, view = some seen → SameSchemas state seen) := by
  constructor
  · exact fun c _ durable => (collection_call_atomic durable).steady
  · exact fun c _ durable => collection_tx_stages durable
  · rintro c store log durable ⟨schemas,-⟩
    refine ⟨?_,by simp⟩
    have unchanged : Keeps (SameSchemas store.state) (collections.on_store c) → SameSchemas store.state (after (collections.on_store c) store).state :=
      fun keeps => keeps.after (fun _ _ kept => kept) (fun _ _ => rfl)
    have same_data : ∀ s t, SameData s t → SameSchemas store.state s → SameSchemas store.state t := fun _ _ same agrees => agrees.apart same
    cases c with
    | CreateCollection io name definition =>
      exact answered (create_collection_atomic durable name definition) (create_collection_mirrors io name definition) schemas
        (fun _ _ => ⟨rfl,rfl⟩) (fun _ _ _ done before => before.create done)
    | MigrateCollectionSchema io name expected_version next_version codec =>
      exact answered (migrate_schema_atomic durable name expected_version next_version codec)
        (migrate_schema_mirrors io name expected_version next_version codec) schemas (fun _ _ => ⟨rfl,rfl⟩) (fun _ _ _ done before => before.migrate done)
    | DefineIndex io collection definition =>
      have keeps := (define_index_atomic durable collection definition).keeps_mirrored (define_index_mirrors io collection definition)
        (SameSchemas.of_data store.state) (fun _ _ _ done before => before.define done)
      exact (schemas.congr (unchanged (keeps.returning CollectionReply.Answered))).other (fun _ => rfl) (fun _ => rfl)
    | UpsertRecord io collection primary_key value indexes =>
      have carries := ((upsert_record_orderly id collection primary_key value indexes).stages durable).carries
      have keeps := @within_keeps _ _ _ (SameSchemas store.state) .Store io _ same_data carries (upsert_record_schemas io collection primary_key value indexes)
      exact (schemas.congr (unchanged (keeps.returning (fun _ => CollectionReply.Done)))).other (fun _ => rfl) (fun _ => rfl)
    | DeleteRecord io collection primary_key =>
      have carries := ((delete_record_orderly id collection primary_key).stages durable).carries
      have keeps := @within_keeps _ _ _ (SameSchemas store.state) .Store io _ same_data carries (delete_record_schemas io collection primary_key)
      exact (schemas.congr (unchanged (keeps.returning CollectionReply.Answered))).other (fun _ => rfl) (fun _ => rfl)
  · rintro state log ⟨schemas,-⟩
    refine ⟨schemas.other (fun _ => rfl) (fun _ => rfl),?_⟩
    rintro _ ⟨⟩ key _
    rfl
  · rintro c tx log durable ⟨schemas,same⟩
    refine ⟨schemas.other (fun _ => rfl) (fun _ => rfl),?_⟩
    rintro _ ⟨⟩
    exact (collection_tx_schemas c).after (fun _ _ kept => kept) (same _ rfl)
  · rintro state view next log same ⟨schemas,agrees⟩
    refine ⟨schemas,?_⟩
    rintro _ ⟨⟩
    exact (agrees view rfl).trans same
  · rintro state view next log - same ⟨schemas,agrees⟩
    refine ⟨(schemas.congr ((agrees view rfl).apart same)).other (fun _ => rfl) (fun _ => rfl),by simp⟩
  · rintro state view log ⟨schemas,-⟩
    exact ⟨schemas.other (fun _ => rfl) (fun _ => rfl),by simp⟩

/-- A call that expects another version changes nothing. -/
theorem stale_changes_nothing {store : Store} {name : Bytes} {definition : CollectionDefinition}
    (found : store.collection_definition name = .ok (some definition)) {expected_version : UInt32}
    (stale : definition.schema_version ≠ expected_version) (io : Io) (next_version : UInt32) (codec : Bytes) :
    migrate_collection_schema io name expected_version next_version codec store = .ok false store := by
  obtain ⟨key,made,read⟩ := bind_ok_iff.mp found
  unfold migrate_collection_schema
  rw [made,lift_ok_bind,get_bind]
  cases there : store.get key with
  | none =>
    rw [there] at read
    cases read
  | some encoded =>
    rw [there,Option.mapM_some] at read
    obtain ⟨decoded,reads,same⟩ := bind_ok_iff.mp read
    cases same
    have known : ok_or CollectionError.CollectionNotFound (some encoded) = .ok encoded := rfl
    rw [known,lift_ok_bind,reads,lift_ok_bind,if_pos stale]
    rfl

/-- What is known of the migrations of a collection that was created. -/
structure Migrated (store : Store) (name : Bytes) (definition : CollectionDefinition) (migrations : List CollectionMigration) : Prop where
  listed : store.collection_migrations name = .ok migrations
  chain : Chain definition.schema_version migrations
  versions : (definition.schema_version :: migrations.map CollectionMigration.to_version).Pairwise (· < ·)
  current : store.collection_definition name = .ok (some (latestDefinition definition migrations))

/-- After any run with no write cut short and every commit confirmed, each collection was created once, with some definition, and
    the migrations that succeeded since are a chain from there: they are listed in their order, and lead to the definition that is
    there now. A call with another version than that changes nothing. -/
theorem migrations_chain {io : Io} {path : Path} {options : StoreOptions} {store : Store} {left : Bytes}
    (opened : open_with_options io path options [] = .ok store left) {moves : List (Move CollectionCall CollectionTxCall)}
    (along : (Play.mk (.Idle store) []).Along collections schemaTerms moves) :
    let play := Play.steps collections ⟨.Idle store,[]⟩ moves
    (∀ name, creations name play.log ≠ [] → ∃ definition, creations name play.log = [definition] ∧
      Migrated play.session.store name definition (migrations name play.log)) ∧
    ∀ name definition, play.session.store.collection_definition name = .ok (some definition) →
      (∃ created, creations name play.log = [created]) ∧ ∀ io expected_version next_version codec, definition.schema_version ≠ expected_version →
        migrate_collection_schema io name expected_version next_version codec play.session.store = .ok false play.session.store := by
  have schemas := (play_invariant schemas_preserved ⟨schemas_empty,by simp⟩ opened along).holds.1
  constructor
  · intro name created
    have short := schemas.short name created
    have versioned := schemas.versioned name short
    obtain ⟨none_created,-,-⟩ | ⟨definition,once,chain,-,-⟩ := versioned.current
    · exact absurd none_created created
    · have current := versioned.definition short
      rw [once] at current
      exact ⟨definition,once,versioned.migrations short,chain,chain.versions,current⟩
  · intro name definition found
    refine ⟨?_,fun io expected_version next_version codec stale => stale_changes_nothing found stale io next_version codec⟩
    obtain ⟨key,made,-⟩ := bind_ok_iff.mp found
    obtain ⟨short,-⟩ := meta_key_ok.mp made
    have versioned := schemas.versioned name short
    obtain ⟨none_created,-,-⟩ | ⟨created,once,-⟩ := versioned.current
    · have current := versioned.definition short
      rw [none_created,found] at current
      cases current
    · exact ⟨created,once⟩

end

/-- Two callers migrate a collection from its first version, and the one that is late tries again. -/
def competing : List (Move CollectionCall CollectionTxCall) :=
  [.Call (.CreateCollection calm [99] ⟨1,[98]⟩),.Call (.MigrateCollectionSchema calm [99] 1 3 [106]),
    .Call (.MigrateCollectionSchema calm [99] 1 2 [107]),.Call (.MigrateCollectionSchema calm [99] 3 300 [107])]

set_option maxRecDepth 20000 in
theorem competing_chain : ∃ store left, @open_with_options crates calm ["a.vstore"] .default [] = .ok store left ∧
    Migrated (@Play.steps crates _ _ _ _ (@collections crates) ⟨.Idle store,[]⟩ competing).session.store [99] ⟨1,[98]⟩
      [⟨1,3,[106]⟩,⟨3,300,[107]⟩] := by
  obtain ⟨store,left,opened⟩ := @sound_opens crates calm [] ["a.vstore"] .default calm_faultless (.inl rfl)
  have evaluated : passes (@open_with_options crates calm ["a.vstore"] .default []) (fun store _ =>
        let log := (@Play.steps crates _ _ _ _ (@collections crates) ⟨.Idle store,[]⟩ competing).log
        decide (creations [99] log = [⟨1,[98]⟩] ∧ migrations [99] log = [⟨1,3,[106]⟩,⟨3,300,[107]⟩])) = true := by
    rw [crates_eq_quick]
    decide +kernel
  rw [opened,passes_ok] at evaluated
  obtain ⟨created,migrated⟩ := of_decide_eq_true evaluated
  refine ⟨store,left,opened,?_⟩
  obtain ⟨definition,once,known⟩ := (@migrations_chain crates _ _ _ _ _ opened competing (by
    refine @along_of_fine crates _ _ _ _ _ schemaTerms (fun call => call.io.Durable) (fun call => call.io.Durable) _
      (fun _ _ durable => durable) (fun _ _ durable => durable) (fun _ _ _ => trivial) ?_ _
    intro move member
    simp only [competing,List.mem_cons,List.not_mem_nil,or_false] at member
    rcases member with rfl | rfl | rfl | rfl <;> exact calm_durable)).1 [99] (by rw [created]; simp)
  rw [created] at once
  rw [migrated] at known
  cases once
  exact known

/-- A migration whose commit is not confirmed, and another one from the same version. -/
def forked : List (Move CollectionCall CollectionTxCall) :=
  [.Call (.CreateCollection calm [99] ⟨1,[98]⟩),.Call (.MigrateCollectionSchema unsynced [99] 1 2 [106]),
    .Call (.MigrateCollectionSchema calm [99] 1 3 [107]),.Reopen calm ["a.vstore"] .default]

set_option maxRecDepth 20000 in
/-- After the reopening both migrations are listed, and they are no chain. -/
theorem unconfirmed_migration_forks : ∃ store left, @open_with_options crates calm ["a.vstore"] .default [] = .ok store left ∧
    let play := @Play.steps crates _ _ _ _ (@collections crates) ⟨.Idle store,[]⟩ forked
    migrations [99] play.log = [⟨1,3,[107]⟩] ∧
      play.session.store.collection_migrations [99] = .ok [⟨1,2,[106]⟩,⟨1,3,[107]⟩] ∧
      ∀ version, ¬ Chain version [⟨1,2,[106]⟩,⟨1,3,[107]⟩] := by
  have evaluated : passes (@open_with_options crates calm ["a.vstore"] .default []) (fun store _ =>
      let play := @Play.steps crates _ _ _ _ (@collections crates) ⟨.Idle store,[]⟩ forked
      decide (migrations [99] play.log = [⟨1,3,[107]⟩]) &&
        ((Collections.migration_prefix [99]).bind (fun front => (Store.scan_prefix play.session.store front).mapM (fun entry =>
          decode_collection_migration entry.2))).toOption.any (fun listed => decide (listed = [⟨1,2,[106]⟩,⟨1,3,[107]⟩]))) =
      true := by
    rw [crates_eq_quick]
    decide +kernel
  obtain ⟨store,left,opened,evaluated⟩ := passes_iff.mp evaluated
  obtain ⟨told,listed⟩ := Bool.and_eq_true_iff.mp evaluated
  have scanned := any_eq_iff.mp listed
  have listed : (@Play.steps crates _ _ _ _ (@collections crates) ⟨.Idle store,[]⟩ forked).session.store.collection_migrations [99] =
      .ok [⟨1,2,[106]⟩,⟨1,3,[107]⟩] := by
    obtain ⟨front,made,read⟩ := bind_ok_iff.mp scanned
    unfold Store.collection_migrations
    rw [made,ok_bind,read,ok_bind,List.mergeSort_of_pairwise (by decide)]
    rfl
  refine ⟨store,left,opened,of_decide_eq_true told,listed,?_⟩
  rintro version ⟨-,-,apart,-⟩
  cases apart

end VoodooStore
