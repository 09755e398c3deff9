import VoodooStore.Ttl

/-!
# Lifetimes of keys

A key holds its latest value until it is deleted or purged, and expires when its
latest `put_with_ttl` said, unless that was cleared, deleted or purged since
(`Life.next`). `Tended` says that a map holds the keys of users and their
expiries as their lives leave them.
-/
namespace VoodooStore
open Effects
set_option linter.unusedSimpArgs false

/-! ## The law -/

/-- What is done to a key. -/
inductive Touch
  | Put (value : Bytes)
  | PutWithTtl (value : Bytes) (expires_at_ms : Int64)
  | Delete
  | ClearTtl
  | Purge
  deriving DecidableEq

/-- What a key holds, and when it expires. -/
structure Life where
  value : Option Bytes
  expiry : Option Int64
  deriving DecidableEq

def Life.next (life : Life) : Touch → Life
  | .Put value => { life with value := some value }
  | .PutWithTtl value expires_at_ms => ⟨some value,some expires_at_ms⟩
  | .Delete => ⟨none,none⟩
  | .ClearTtl => { life with expiry := none }
  | .Purge => ⟨none,none⟩

def lifeOf (touches : List Touch) : Life := touches.foldl Life.next ⟨none,none⟩

theorem life_snoc (touches : List Touch) (touch : Touch) : lifeOf (touches ++ [touch]) = (lifeOf touches).next touch := by
  simp [lifeOf]

/-- A `put_with_ttl` with this expiry, and nothing but writes after it. -/
def StillExpires (touches : List Touch) (expires_at_ms : Int64) : Prop :=
  ∃ before value after, touches = before ++ .PutWithTtl value expires_at_ms :: after ∧ ∀ touch ∈ after, ∃ value, touch = .Put value

theorem still_expires_snoc (touches : List Touch) (touch : Touch) (expires_at_ms : Int64) :
    StillExpires (touches ++ [touch]) expires_at_ms ↔
      (∃ value, touch = .PutWithTtl value expires_at_ms) ∨ (∃ value, touch = .Put value) ∧ StillExpires touches expires_at_ms := by
  constructor
  · rintro ⟨before,value,after,whole,writes⟩
    rcases List.eq_nil_or_concat after with rfl | ⟨rest,last,rfl⟩
    · obtain ⟨-,ends⟩ := List.append_inj' whole rfl
      cases ends
      exact .inl ⟨value,rfl⟩
    · rw [List.concat_eq_append,← List.cons_append,← List.append_assoc] at whole
      obtain ⟨first,ends⟩ := List.append_inj' whole rfl
      cases ends
      exact .inr ⟨writes touch (by simp),before,value,rest,first,fun other member => writes other (by simp [member])⟩
  · rintro (⟨value,rfl⟩ | ⟨⟨written,rfl⟩,before,value,after,rfl,writes⟩)
    · exact ⟨touches,value,[],rfl,by simp⟩
    · refine ⟨before,value,after ++ [.Put written],by simp,?_⟩
      intro touch member
      rcases List.mem_append.mp member with early | last
      · exact writes touch early
      · exact ⟨written,List.mem_singleton.mp last⟩

/-- The expiry is that of the latest `put_with_ttl`, if nothing but writes came after it. -/
theorem expiry_iff (touches : List Touch) (expires_at_ms : Int64) :
    (lifeOf touches).expiry = some expires_at_ms ↔ StillExpires touches expires_at_ms := by
  induction touches using List.reverseRecOn with
  | nil => simp [lifeOf,StillExpires]
  | append_singleton touches touch ih =>
    rw [life_snoc,still_expires_snoc,← ih]
    cases touch with
    | Put value => simp [Life.next]
    | PutWithTtl value expires => simp [Life.next]
    | Delete => simp [Life.next]
    | ClearTtl => simp [Life.next]
    | Purge => simp [Life.next]

/-! ## The key of an expiry -/

def UserKey (key : Bytes) : Prop := ensure_user_key key = .ok ()

instance (key : Bytes) : Decidable (UserKey key) := decidable_of_iff (starts_with key INTERNAL_KEY_PREFIX = false) (by
  unfold UserKey ensure_user_key
  cases starts_with key INTERNAL_KEY_PREFIX <;> simp)

def ttlKey (key : Bytes) : Bytes := TTL_PREFIX ++ ((UInt32.ofNat key.length).to_be_bytes ++ key)

theorem ttl_key_ok {key metadata_key : Bytes} : ttl_key key = .ok metadata_key ↔ key.length < 2 ^ 32 ∧ metadata_key = ttlKey key := by
  unfold ttl_key UInt32.try_from ttlKey
  by_cases fits : key.length < 2 ^ 32
  · simp only [fits,if_true,true_and]
    exact ⟨fun same => (Except.ok.inj same).symm,fun same => congrArg Except.ok same.symm⟩
  · simp only [fits,if_false,false_and,iff_false]
    intro made
    cases made

theorem ttlKey_injective {a b : Bytes} (same : ttlKey a = ttlKey b) : a = b :=
  (List.append_inj (List.append_cancel_left same) (by simp)).2

theorem decode_ttl_key_ttlKey {key : Bytes} (fits : key.length < 2 ^ 32) : decode_ttl_key (ttlKey key) = .ok key := by
  have own : starts_with (ttlKey key) TTL_PREFIX = true := by
    rw [starts_with_iff]
    exact List.prefix_append _ _
  have rest : (ttlKey key).drop TTL_PREFIX.length = (UInt32.ofNat key.length).to_be_bytes ++ key := List.drop_left
  have length : ((UInt32.ofNat key.length).to_be_bytes ++ key).length = 4 + key.length := by simp
  have front : ((UInt32.ofNat key.length).to_be_bytes ++ key).take 4 = (UInt32.ofNat key.length).to_be_bytes :=
    List.take_left' (by simp)
  have back : ((UInt32.ofNat key.length).to_be_bytes ++ key).drop 4 = key := List.drop_left' (by simp)
  have read : (UInt32.from_be_bytes (UInt32.ofNat key.length).to_be_bytes).toNat = key.length := by
    rw [UInt32.from_be_bytes,UInt32.to_be_bytes,Endian.ofBe_toBe (UInt32.toNat_lt _),UInt32.ofNat_toNat,u32_of_length fits]
  unfold decode_ttl_key
  rw [own,rest]
  dsimp only
  rw [front,back,read,length]
  simp

theorem decode_ttl_encode (ttl : TtlInfo) : decode_ttl (encode_ttl ttl) = .ok ttl := by
  have size : (encode_ttl ttl).length = 9 := by simp [encode_ttl]
  have first : (encode_ttl ttl).head? = some TTL_VALUE_VERSION := rfl
  unfold decode_ttl
  rw [size,first,if_neg (by simp)]
  show Except.ok (TtlInfo.mk (Int64.from_le_bytes ttl.expires_at_ms.to_le_bytes)) = _
  rw [i64_from_to_le]

theorem user_key_iff (key : Bytes) : UserKey key ↔ starts_with key INTERNAL_KEY_PREFIX = false := by
  unfold UserKey ensure_user_key
  cases starts_with key INTERNAL_KEY_PREFIX <;> simp

theorem ttlKey_reserved (key : Bytes) : ¬ UserKey (ttlKey key) := by
  rw [user_key_iff,Bool.not_eq_false,starts_with_iff,ttlKey,TTL_PREFIX,List.append_assoc]
  exact List.prefix_append _ _

theorem user_ne_ttlKey {user : Bytes} (is : UserKey user) (key : Bytes) : user ≠ ttlKey key := by
  rintro rfl
  exact ttlKey_reserved key is

theorem ttlKey_starts (key : Bytes) : starts_with (ttlKey key) TTL_PREFIX = true := by
  rw [starts_with_iff]
  exact List.prefix_append _ _

/-- The keys of users and those of expiries. -/
def Lived (key : Bytes) : Prop := starts_with key INTERNAL_KEY_PREFIX = false ∨ starts_with key TTL_PREFIX = true

/-- A key of a user or of an expiry is not one of the feed. -/
theorem key_apart {key : Bytes} (own : Lived key) : starts_with key CDC_PREFIX = false := by
  rcases own with user | expiry
  · exact user_key_outside ((user_key_iff key).mpr user)
  · exact domain_key_outside ⟨TTL_PREFIX,by decide,(starts_with_iff _ _).mp expiry⟩

/-! ## What the store holds -/

def expiryBytes (expires_at_ms : Int64) : Bytes := encode_ttl ⟨expires_at_ms⟩

/-- The map holds every key of a user as its life leaves it. -/
structure Tended (lives : Bytes → Life) (state : State) : Prop where
  value : ∀ key, UserKey key → state[key]? = (lives key).value
  expiry : ∀ key, UserKey key → key.length < 2 ^ 32 → state[ttlKey key]? = (lives key).expiry.map expiryBytes
  owned : ∀ key value, starts_with key TTL_PREFIX = true → state[key]? = some value →
    ∃ user, UserKey user ∧ user.length < 2 ^ 32 ∧ key = ttlKey user
  alive : ∀ key, UserKey key → (lives key).expiry ≠ none → (lives key).value ≠ none
  fits : ∀ key, UserKey key → (lives key).value ≠ none → key.length < 2 ^ 32

theorem tended_empty : Tended (fun _ => ⟨none,none⟩) ∅ := by
  refine ⟨by simp,by simp,?_,by simp,by simp⟩
  intro key value _ found
  simp at found

theorem Tended.congr {lives : Bytes → Life} {s t : State} (tended : Tended lives s)
    (same : ∀ key, Lived key → t[key]? = s[key]?) : Tended lives t := by
  refine ⟨?_,?_,?_,tended.alive,tended.fits⟩
  · intro key user
    rw [same key (.inl ((user_key_iff key).mp user))]
    exact tended.value key user
  · intro key user fits
    rw [same _ (.inr (ttlKey_starts key))]
    exact tended.expiry key user fits
  · intro key value own found
    rw [same key (.inr own)] at found
    exact tended.owned key value own found

theorem Tended.same {lives : Bytes → Life} {s t : State} (tended : Tended lives s) (same : SameData s t) : Tended lives t :=
  tended.congr (fun key own => same key (key_apart own))

theorem user_not_expiry {key : Bytes} (user : UserKey key) : starts_with key TTL_PREFIX = false := by
  rw [user_key_iff] at user
  by_contra own
  rw [Bool.not_eq_false,starts_with_iff] at own
  have reserved : starts_with key INTERNAL_KEY_PREFIX = true := (starts_with_iff _ _).mpr ((List.prefix_append _ _).trans own)
  rw [user] at reserved
  cases reserved

/-- One key gets another life, and its two entries say so. -/
theorem Tended.update {lives : Bytes → Life} {s t : State} (tended : Tended lives s) {key : Bytes} (user : UserKey key) {life : Life}
    (value : t[key]? = life.value) (expiry : key.length < 2 ^ 32 → t[ttlKey key]? = life.expiry.map expiryBytes)
    (alive : life.expiry ≠ none → life.value ≠ none) (fits : t[ttlKey key]? ≠ none ∨ life.value ≠ none → key.length < 2 ^ 32)
    (others : ∀ other, other ≠ key → other ≠ ttlKey key → t[other]? = s[other]?) :
    Tended (Function.update lives key life) t := by
  refine ⟨?_,?_,?_,?_,?_⟩
  · intro other is
    by_cases here : other = key
    · subst here
      rw [Function.update_self]
      exact value
    · rw [Function.update_of_ne here,others other here (user_ne_ttlKey is key)]
      exact tended.value other is
  · intro other is short
    by_cases here : other = key
    · subst here
      rw [Function.update_self]
      exact expiry short
    · rw [Function.update_of_ne here,others _ (user_ne_ttlKey user other).symm (fun same => here (ttlKey_injective same))]
      exact tended.expiry other is short
  · intro other found own there
    by_cases here : other = ttlKey key
    · subst here
      exact ⟨key,user,fits (.inl (by simp [there])),rfl⟩
    · refine tended.owned other found own ?_
      rw [← others other ?_ here]
      · exact there
      · rintro rfl
        rw [user_not_expiry user] at own
        cases own
  · intro other is expires
    by_cases here : other = key
    · subst here
      rw [Function.update_self] at expires ⊢
      exact alive expires
    · rw [Function.update_of_ne here] at expires ⊢
      exact tended.alive other is expires
  · intro other is there
    by_cases here : other = key
    · subst here
      rw [Function.update_self] at there
      exact fits (.inr there)
    · rw [Function.update_of_ne here] at there
      exact tended.fits other is there

/-- An expiry that is written belongs to a key whose length can be written. -/
theorem Tended.short {lives : Bytes → Life} {state : State} (tended : Tended lives state) {key : Bytes}
    (there : state[ttlKey key]? ≠ none) : UserKey key ∧ key.length < 2 ^ 32 := by
  obtain ⟨value,found⟩ := Option.ne_none_iff_exists'.mp there
  obtain ⟨user,is,fits,same⟩ := tended.owned _ value (ttlKey_starts key) found
  rw [ttlKey_injective same]
  exact ⟨is,fits⟩

theorem Tended.put {lives : Bytes → Life} {state : State} (tended : Tended lives state) {key : Bytes} (user : UserKey key)
    (fits : key.length < 2 ^ 32) (value : Bytes) :
    Tended (Function.update lives key ((lives key).next (.Put value))) (state.insert key value) := by
  refine tended.update user ?_ ?_ (by simp [Life.next]) (fun _ => fits) ?_
  · rw [get_insert,if_pos rfl]
    rfl
  · intro _
    rw [get_insert,if_neg (user_ne_ttlKey user key),tended.expiry key user fits]
    rfl
  · intro other here _
    rw [get_insert,if_neg (Ne.symm here)]

theorem Tended.put_with_ttl {lives : Bytes → Life} {state : State} (tended : Tended lives state) {key : Bytes} (user : UserKey key)
    (fits : key.length < 2 ^ 32) (value : Bytes) (expires_at_ms : Int64) :
    Tended (Function.update lives key ((lives key).next (.PutWithTtl value expires_at_ms)))
      ((state.insert key value).insert (ttlKey key) (expiryBytes expires_at_ms)) := by
  refine tended.update user ?_ ?_ (by simp [Life.next]) (fun _ => fits) ?_
  · rw [get_insert,if_neg (user_ne_ttlKey user key).symm,get_insert,if_pos rfl]
    rfl
  · intro _
    rw [get_insert,if_pos rfl]
    rfl
  · intro other here twin
    rw [get_insert,if_neg (Ne.symm twin),get_insert,if_neg (Ne.symm here)]

/-- A key without an expiry is deleted. -/
theorem Tended.delete {lives : Bytes → Life} {state : State} (tended : Tended lives state) {key : Bytes} (user : UserKey key)
    (lasting : key.length < 2 ^ 32 → state[ttlKey key]? = none) :
    Tended (Function.update lives key ((lives key).next .Delete)) (state.erase key) := by
  have twin : (state.erase key)[ttlKey key]? = state[ttlKey key]? := by
    rw [get_erase,if_neg (user_ne_ttlKey user key)]
  refine tended.update user ?_ ?_ (by simp [Life.next]) ?_ ?_
  · rw [get_erase,if_pos rfl]
    rfl
  · intro fits
    rw [twin,lasting fits]
    rfl
  · rintro (there | present)
    · rw [twin] at there
      exact (tended.short there).2
    · exact absurd rfl present
  · intro other here _
    rw [get_erase,if_neg (Ne.symm here)]

theorem Tended.clear {lives : Bytes → Life} {state : State} (tended : Tended lives state) {key : Bytes} (user : UserKey key)
    (fits : key.length < 2 ^ 32) : Tended (Function.update lives key ((lives key).next .ClearTtl)) (state.erase (ttlKey key)) := by
  refine tended.update user ?_ ?_ (by simp [Life.next]) (fun _ => fits) ?_
  · rw [get_erase,if_neg (user_ne_ttlKey user key).symm]
    exact tended.value key user
  · intro _
    rw [get_erase,if_pos rfl]
    rfl
  · intro other _ here
    rw [get_erase,if_neg (Ne.symm here)]

/-- Some keys are removed together with their expiries. -/
theorem Tended.purge {lives : Bytes → Life} {s t : State} (tended : Tended lives s) {users gone : List Bytes}
    (removes : ∀ key, t[key]? = if key ∈ gone then none else s[key]?)
    (both : ∀ key, key ∈ gone ↔ ∃ user ∈ users, key = user ∨ key = ttlKey user) (are : ∀ user ∈ users, UserKey user) :
    Tended (fun key => if key ∈ users then (lives key).next .Purge else lives key) t := by
  have own : ∀ key, UserKey key → (key ∈ gone ↔ key ∈ users) := by
    intro key is
    rw [both]
    constructor
    · rintro ⟨user,member,rfl | rfl⟩
      · exact member
      · exact absurd is (ttlKey_reserved user)
    · exact fun member => ⟨key,member,.inl rfl⟩
  have twin : ∀ key, ttlKey key ∈ gone ↔ key ∈ users := by
    intro key
    rw [both]
    constructor
    · rintro ⟨user,member,rfl | same⟩
      · exact absurd (are _ member) (ttlKey_reserved key)
      · rw [ttlKey_injective same]
        exact member
    · exact fun member => ⟨key,member,.inr rfl⟩
  refine ⟨?_,?_,?_,?_,?_⟩
  · intro key is
    rw [removes key]
    simp only [own key is]
    split
    · rfl
    · exact tended.value key is
  · intro key is fits
    rw [removes]
    simp only [twin key]
    split
    · rfl
    · exact tended.expiry key is fits
  · intro key value starts found
    rw [removes] at found
    split at found
    · cases found
    · exact tended.owned key value starts found
  · intro key is expires
    split at expires
    · exact absurd rfl expires
    · rename_i outside
      rw [if_neg outside]
      exact tended.alive key is expires
  · intro key is there
    split at there
    · exact absurd rfl there
    · exact tended.fits key is there

/-- Only the lives of users' keys matter. -/
theorem Tended.lives_congr {lives others : Bytes → Life} {state : State} (tended : Tended lives state)
    (same : ∀ key, UserKey key → others key = lives key) : Tended others state := by
  refine ⟨?_,?_,tended.owned,?_,?_⟩
  · intro key user
    rw [same key user]
    exact tended.value key user
  · intro key user fits
    rw [same key user]
    exact tended.expiry key user fits
  · intro key user
    rw [same key user]
    exact tended.alive key user
  · intro key user
    rw [same key user]
    exact tended.fits key user

end VoodooStore
