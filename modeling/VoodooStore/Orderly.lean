import VoodooStore.Footprint

/-!
# Orderly computations

Whatever fails, an orderly computation changes no keys but its own; and if the
conditions under which it is safe are met, it keeps a sound store sound and its
file whole. One walk through the code of a call shows both.
-/
namespace VoodooStore
open Effects
set_option linter.unusedSimpArgs false

theorem Elsewhere.mono {own wider : Bytes → Prop} {seen s : State} (agrees : Elsewhere own seen s) (inside : ∀ key, own key → wider key) :
    Elsewhere wider seen s :=
  fun key outside other => agrees key outside (fun mine => other (inside key mine))

theorem Elsewhere.trans {own : Bytes → Prop} {r s t : State} (first : Elsewhere own r s) (second : Elsewhere own s t) :
    Elsewhere own r t :=
  fun key outside other => (second key outside other).trans (first key outside other)

section
variable {ε φ α β : Type} {own wider : Bytes → Prop}

/-- What is confined from every state is confined. -/
theorem confined_of_elsewhere {x : EStateM ε Store α} (agrees : ∀ store, Elsewhere own store.state (after x store).state) :
    Confined own x := by
  intro seen
  refine keeps_of_after (fun store before => ?_)
  exact before.trans (agrees store)

theorem Confined.mono {x : EStateM ε Store α} (confined : Confined own x) (inside : ∀ key, own key → wider key) : Confined wider x :=
  confined_of_elsewhere (fun store => (confined.elsewhere store).mono inside)

theorem ConfinedView.mono {x : EStateM ε Transaction α} (confined : ConfinedView own x) (inside : ∀ key, own key → wider key) :
    ConfinedView wider x := by
  refine ⟨?_,confined.carries⟩
  intro seen tx before
  have agrees := (confined.elsewhere tx).mono inside
  unfold after at agrees
  cases result : x tx with
  | ok a u => rw [result] at agrees; exact before.trans agrees
  | error e u => rw [result] at agrees; exact before.trans agrees

end

section
variable [Hashes]

structure Orderly {ε α : Type} (own : Bytes → Prop) (safe : Prop) (x : EStateM ε Store α) : Prop where
  confined : Confined own x
  steady : safe → Steady x

structure OrderlyView {ε α : Type} (own : Bytes → Prop) (safe : Prop) (x : EStateM ε Transaction α) : Prop where
  confined : ConfinedView own x
  stages : safe → Stages x

end

section
variable [Hashes] {ε φ α β : Type} {own wider : Bytes → Prop} {safe : Prop}

/-! ## On a store -/

theorem orderly_of_reads {x : EStateM ε Store α} (reads : Reads x) : Orderly own safe x :=
  ⟨confined_of_reads reads,fun _ => steady_of_reads reads⟩

theorem Orderly.mono {x : EStateM ε Store α} (orderly : Orderly own safe x) (inside : ∀ key, own key → wider key) :
    Orderly wider safe x :=
  ⟨orderly.confined.mono inside,orderly.steady⟩

theorem Orderly.bind {x : EStateM ε Store α} {f : α → EStateM ε Store β} (first : Orderly own safe x)
    (second : ∀ a, Orderly own safe (f a)) : Orderly own safe (x >>= f) :=
  ⟨first.confined.bind (fun a => (second a).confined),fun safely => (first.steady safely).bind (fun a => (second a).steady safely)⟩

/-- Checks come first. -/
theorem Orderly.after_reads {x : EStateM ε Store α} {f : α → EStateM ε Store β} (reads : Reads x) (then_do : ∀ a, Orderly own safe (f a)) :
    Orderly own safe (x >>= f) := (orderly_of_reads reads).bind then_do

theorem Orderly.returning {x : EStateM ε Store α} (orderly : Orderly own safe x) (f : α → β) :
    Orderly own safe (do return f (← x)) := orderly.bind (fun _ => orderly_of_reads (reads_pure _))

theorem Orderly.rethrow {f : ε → φ} {x : EStateM ε Store α} (orderly : Orderly own safe x) : Orderly own safe (rethrow f x) :=
  ⟨orderly.confined.rethrow,fun safely => (orderly.steady safely).rethrow⟩

/-- What is computed before is known afterwards. -/
theorem Orderly.lifted {x : Except ε α} {f : α → EStateM ε Store β} (orderly : ∀ a, x = .ok a → Orderly own safe (f a)) :
    Orderly own safe (lift x >>= f) := by
  cases x with
  | error e => exact orderly_of_reads (reads_throw e)
  | ok a => exact orderly a rfl

/-! ## In a transaction -/

theorem orderly_view_of_reads {x : EStateM ε Transaction α} (reads : Reads x) : OrderlyView own safe x :=
  ⟨confined_view_of_reads reads,fun _ => stages_of_reads reads⟩

theorem OrderlyView.mono {x : EStateM ε Transaction α} (orderly : OrderlyView own safe x) (inside : ∀ key, own key → wider key) :
    OrderlyView wider safe x :=
  ⟨orderly.confined.mono inside,orderly.stages⟩

theorem OrderlyView.bind {x : EStateM ε Transaction α} {f : α → EStateM ε Transaction β} (first : OrderlyView own safe x)
    (second : ∀ a, OrderlyView own safe (f a)) : OrderlyView own safe (x >>= f) :=
  ⟨first.confined.bind (fun a => (second a).confined),fun safely => (first.stages safely).bind (fun a => (second a).stages safely)⟩

theorem OrderlyView.after_reads {x : EStateM ε Transaction α} {f : α → EStateM ε Transaction β} (reads : Reads x)
    (then_do : ∀ a, OrderlyView own safe (f a)) : OrderlyView own safe (x >>= f) := (orderly_view_of_reads reads).bind then_do

theorem OrderlyView.returning {x : EStateM ε Transaction α} (orderly : OrderlyView own safe x) (f : α → β) :
    OrderlyView own safe (do return f (← x)) := orderly.bind (fun _ => orderly_view_of_reads (reads_pure _))

theorem OrderlyView.rethrow {f : ε → φ} {x : EStateM ε Transaction α} (orderly : OrderlyView own safe x) :
    OrderlyView own safe (rethrow f x) :=
  ⟨orderly.confined.rethrow,fun safely => (orderly.stages safely).rethrow⟩

theorem OrderlyView.lifted {x : Except ε α} {f : α → EStateM ε Transaction β} (orderly : ∀ a, x = .ok a → OrderlyView own safe (f a)) :
    OrderlyView own safe (lift x >>= f) := by
  cases x with
  | error e => exact orderly_view_of_reads (reads_throw e)
  | ok a => exact orderly a rfl

/-! ## Writes -/

section
variable {io : Io} (durable : safe → io.Durable)
include durable

theorem put_orderly {key : Bytes} (mine : own key) (value : Bytes) : OrderlyView own safe (put_internal io key value) :=
  ⟨put_confined io mine value,fun safely => put_stages (durable safely).1 key value⟩

theorem delete_orderly {key : Bytes} (mine : own key) : OrderlyView own safe (delete_internal io key) :=
  ⟨delete_confined io mine,fun safely => delete_stages (durable safely).1 key⟩

/-- A transaction of its own. -/
theorem within_orderly {wrap : EngineError → ε} {body : EStateM ε Transaction α} (orderly : OrderlyView own safe body) :
    Orderly own safe (within wrap io body) :=
  ⟨within_confined orderly.confined,fun safely => within_steady (durable safely) (orderly.stages safely)⟩

theorem put_alone_orderly {key : Bytes} (mine : own key) (value : Bytes) : Orderly own safe (put_alone io key value) :=
  within_orderly durable (put_orderly durable mine value)

theorem delete_alone_orderly {key : Bytes} (mine : own key) : Orderly own safe (delete_alone io key) :=
  within_orderly durable (delete_orderly durable mine)

/-- Users write their keys. -/
theorem user_put_orderly {key : Bytes} (mine : ensure_user_key key = .ok () → own key) (value : Bytes) : OrderlyView own safe (put io key value) := by
  refine .lifted (fun _ checked => ?_)
  exact put_orderly durable (mine checked) value

theorem user_delete_orderly {key : Bytes} (mine : ensure_user_key key = .ok () → own key) : OrderlyView own safe (delete io key) := by
  refine .lifted (fun _ checked => ?_)
  exact delete_orderly durable (mine checked)

theorem delete_keys_orderly {keys : List Bytes} (mine : ∀ key ∈ keys, own key) : OrderlyView own safe (delete_keys io keys) := by
  induction keys with
  | nil => exact orderly_view_of_reads (reads_pure _)
  | cons key keys ih =>
    exact (delete_orderly durable (mine key (by simp))).bind (fun _ => ih (fun other member => mine other (by simp [member])))

end

end

end VoodooStore
