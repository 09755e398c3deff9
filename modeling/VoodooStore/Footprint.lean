import VoodooStore.Interleaving

/-!
# Footprints

A computation is confined to some keys if it changes no others, whether it
fails or not; the feed of changes does not count. Chains of computations are
confined to what their parts are confined to.
-/
namespace VoodooStore
open Effects
set_option linter.unusedSimpArgs false

/-- No key starts with two prefixes that do not start with each other. -/
theorem prefixes_apart {one other key : Bytes} (apart : ¬ one <+: other ∧ ¬ other <+: one) (own : one <+: key) : ¬ other <+: key := by
  intro both
  rcases List.prefix_or_prefix_of_prefix own both with short | long
  · exact apart.1 short
  · exact apart.2 long

/-- Outside the feed the maps differ in these keys at most. -/
def Elsewhere (own : Bytes → Prop) (seen s : State) : Prop :=
  ∀ key, starts_with key CDC_PREFIX = false → ¬ own key → s[key]? = seen[key]?

theorem Elsewhere.refl (own : Bytes → Prop) (seen : State) : Elsewhere own seen seen := fun _ _ _ => rfl

theorem Elsewhere.same {own : Bytes → Prop} {seen s t : State} (agrees : Elsewhere own seen s) (same : SameData s t) :
    Elsewhere own seen t := by
  intro key outside other
  rw [same key outside]
  exact agrees key outside other

theorem Elsewhere.insert {own : Bytes → Prop} {seen s : State} (agrees : Elsewhere own seen s) {key : Bytes} (mine : own key)
    (value : Bytes) : Elsewhere own seen (s.insert key value) := by
  intro other outside elsewhere
  rw [get_insert,if_neg]
  · exact agrees other outside elsewhere
  · rintro rfl
    exact elsewhere mine

theorem Elsewhere.erase {own : Bytes → Prop} {seen s : State} (agrees : Elsewhere own seen s) {key : Bytes} (mine : own key) :
    Elsewhere own seen (s.erase key) := by
  intro other outside elsewhere
  rw [get_erase,if_neg]
  · exact agrees other outside elsewhere
  · rintro rfl
    exact elsewhere mine

/-- The computation on a store changes no other keys. -/
def Confined {ε α : Type} (own : Bytes → Prop) (x : EStateM ε Store α) : Prop := ∀ seen, Keeps (Elsewhere own seen) x

/-- The computation on a transaction only stages, and changes no other keys of what it sees. -/
structure ConfinedView {ε α : Type} (own : Bytes → Prop) (x : EStateM ε Transaction α) : Prop where
  keeps : ∀ seen, KeepsView (Elsewhere own seen) x
  carries : ∀ tx, Carries tx (after x tx)

section
variable {ε φ α β : Type} {own : Bytes → Prop}

theorem Confined.elsewhere {x : EStateM ε Store α} (confined : Confined own x) (store : Store) :
    Elsewhere own store.state (after x store).state :=
  (confined store.state).after (fun _ _ kept => kept) (.refl own store.state)

theorem ConfinedView.elsewhere {x : EStateM ε Transaction α} (confined : ConfinedView own x) (tx : Transaction) :
    Elsewhere own tx.view (after x tx).view :=
  (confined.keeps tx.view).after (fun _ _ kept => kept) (.refl own tx.view)

theorem confined_of_reads {x : EStateM ε Store α} (reads : Reads x) : Confined own x := fun _ => keeps_of_reads reads

theorem confined_view_of_reads {x : EStateM ε Transaction α} (reads : Reads x) : ConfinedView own x := by
  refine ⟨fun _ => keeps_view_of_reads reads,?_⟩
  intro tx
  rw [reads tx]
  exact .refl tx

theorem Confined.bind {x : EStateM ε Store α} {f : α → EStateM ε Store β} (first : Confined own x) (second : ∀ a, Confined own (f a)) :
    Confined own (x >>= f) := fun seen => (first seen).bind (fun a => second a seen)

theorem ConfinedView.bind {x : EStateM ε Transaction α} {f : α → EStateM ε Transaction β} (first : ConfinedView own x)
    (second : ∀ a, ConfinedView own (f a)) : ConfinedView own (x >>= f) := by
  refine ⟨fun seen => (first.keeps seen).bind (fun a => (second a).keeps seen),?_⟩
  intro tx
  have carried := first.carries tx
  unfold after at carried ⊢
  rw [bind_run]
  cases result : x tx with
  | ok a u =>
    rw [result] at carried
    exact carried.trans ((second a).carries u)
  | error e u =>
    rw [result] at carried
    exact carried

theorem Confined.rethrow {f : ε → φ} {x : EStateM ε Store α} (confined : Confined own x) : Confined own (rethrow f x) :=
  fun seen => (confined seen).rethrow

theorem ConfinedView.rethrow {f : ε → φ} {x : EStateM ε Transaction α} (confined : ConfinedView own x) :
    ConfinedView own (rethrow f x) := by
  refine ⟨fun seen => (confined.keeps seen).rethrow,?_⟩
  intro tx
  have carried := confined.carries tx
  unfold after at carried ⊢
  unfold Effects.rethrow
  cases result : x tx with
  | ok a u => rw [result] at carried; exact carried
  | error e u => rw [result] at carried; exact carried

/-- What is computed before is known afterwards. -/
theorem Confined.lifted {x : Except ε α} {f : α → EStateM ε Store β} (confined : ∀ a, x = .ok a → Confined own (f a)) :
    Confined own (lift x >>= f) := by
  cases x with
  | error e => exact confined_of_reads (reads_throw e)
  | ok a => exact confined a rfl

/-- What is read before is known afterwards. -/
theorem Confined.checked {x : EStateM ε Store α} {f : α → EStateM ε Store β} {known : α → Prop} (reads : Reads x)
    (found : ∀ store a t, x store = .ok a t → known a) (confined : ∀ a, known a → Confined own (f a)) : Confined own (x >>= f) := by
  intro seen store agrees
  cases result : x store with
  | ok a t =>
    rw [bind_of_ok result]
    rw [← reads.ok result] at agrees
    exact confined a (found store a t result) seen t agrees
  | error e t =>
    rw [bind_of_error result]
    rw [← reads.error result] at agrees
    exact agrees

theorem ConfinedView.lifted {x : Except ε α} {f : α → EStateM ε Transaction β} (confined : ∀ a, x = .ok a → ConfinedView own (f a)) :
    ConfinedView own (lift x >>= f) := by
  cases x with
  | error e => exact confined_view_of_reads (reads_throw e)
  | ok a => exact confined a rfl

section
variable [Hashes]

theorem put_confined (io : Io) {key : Bytes} (mine : own key) (value : Bytes) : ConfinedView own (put_internal io key value) := by
  refine ⟨fun _ => put_keeps io key value (fun _ agrees => agrees.insert mine value),?_⟩
  intro tx
  unfold after
  cases result : put_internal io key value tx with
  | ok x u => exact (put_internal_ok result).2
  | error e u => exact (stage_refused_view result).2

theorem delete_confined (io : Io) {key : Bytes} (mine : own key) : ConfinedView own (delete_internal io key) := by
  refine ⟨fun _ => delete_keeps io key (fun _ agrees => agrees.erase mine),?_⟩
  intro tx
  unfold after
  cases result : delete_internal io key tx with
  | ok x u => exact (delete_internal_ok result).2
  | error e u => exact (stage_refused_view result).2

theorem within_confined {wrap : EngineError → ε} {io : Io} {body : EStateM ε Transaction α} (confined : ConfinedView own body) :
    Confined own (within wrap io body) :=
  fun seen => within_keeps (fun _ _ same agrees => agrees.same same) confined.carries (confined.keeps seen)

/-- Where the transaction of a single mutation fails, the map is as it was. -/
theorem put_alone_error {io : Io} {key value : Bytes} {store t : Store} {e : EngineError}
    (failed : put_alone io key value store = .error e t) : t.state = store.state :=
  within_error (@put_confined (fun _ => True) _ io key trivial value).carries failed

theorem delete_alone_error {io : Io} {key : Bytes} {store t : Store} {e : EngineError}
    (failed : delete_alone io key store = .error e t) : t.state = store.state :=
  within_error (@delete_confined (fun _ => True) _ io key trivial).carries failed

theorem put_alone_confined (io : Io) {key : Bytes} (mine : own key) (value : Bytes) : Confined own (put_alone io key value) :=
  within_confined (put_confined io mine value)

theorem delete_alone_confined (io : Io) {key : Bytes} (mine : own key) : Confined own (delete_alone io key) :=
  within_confined (delete_confined io mine)

end

end

end VoodooStore
