import Mathlib

/-!
# Computations that keep their state when they fail

`EStateM` returns the state it reached with its result and with its error
alike. A chain of computations succeeds when all of its parts do, and fails in
the state that the failing part left.
-/
namespace Effects
variable {ε σ τ α β : Type}

/-- The state that a computation leaves, whether it fails or not. -/
def after (x : EStateM ε σ α) (s : σ) : σ :=
  match x s with
  | .ok _ t => t
  | .error _ t => t

/-- A computation has succeeded, with a result and a state that pass the check. -/
def passes (result : EStateM.Result ε σ α) (check : α → σ → Bool) : Bool :=
  match result with
  | .ok a t => check a t
  | .error _ _ => false

theorem passes_ok (a : α) (t : σ) (check : α → σ → Bool) : passes (.ok a t : EStateM.Result ε σ α) check = check a t := rfl

theorem passes_iff {result : EStateM.Result ε σ α} {check : α → σ → Bool} :
    passes result check = true ↔ ∃ a t, result = .ok a t ∧ check a t = true := by
  cases result with
  | ok a t => simp [passes]
  | error e t => simp [passes]

/-- Whether a computation has failed, and a check of the error and of what it left. -/
def fails (result : EStateM.Result ε σ α) (check : ε → σ → Bool) : Bool :=
  match result with
  | .ok _ _ => false
  | .error e t => check e t

theorem fails_iff {result : EStateM.Result ε σ α} {check : ε → σ → Bool} :
    fails result check = true ↔ ∃ e t, result = .error e t ∧ check e t = true := by
  cases result with
  | ok a t => simp [fails]
  | error e t => simp [fails]

/-- The error with which a computation has failed. -/
def failure : EStateM.Result ε σ α → Option ε
  | .ok _ _ => none
  | .error e _ => some e

theorem failure_iff {result : EStateM.Result ε σ α} {e : ε} : failure result = some e ↔ ∃ t, result = .error e t := by
  cases result with
  | ok a t => simp [failure]
  | error d t => simp [failure]

/-- A computation that returns a result or an error and leaves the state alone. -/
def lift (x : Except ε α) : EStateM ε σ α := fun s =>
  match x with
  | .ok a => .ok a s
  | .error e => .error e s

/-- A computation on a part of the state. -/
def zoom (get : τ → σ) (set : τ → σ → τ) (x : EStateM ε σ α) : EStateM ε τ α := fun t =>
  match x (get t) with
  | .ok a s => .ok a (set t s)
  | .error e s => .error e (set t s)

@[simp] theorem pure_run (a : α) (s : σ) : (pure a : EStateM ε σ α) s = .ok a s := rfl
@[simp] theorem throw_run (e : ε) (s : σ) : (throw e : EStateM ε σ α) s = .error e s := rfl
@[simp] theorem get_run (s : σ) : (get : EStateM ε σ σ) s = .ok s s := rfl
@[simp] theorem set_run (s t : σ) : (set t : EStateM ε σ PUnit) s = .ok ⟨⟩ t := rfl
@[simp] theorem modify_run (f : σ → σ) (s : σ) : (modify f : EStateM ε σ PUnit) s = .ok ⟨⟩ (f s) := rfl
@[simp] theorem lift_ok (a : α) (s : σ) : (lift (.ok a) : EStateM ε σ α) s = .ok a s := rfl
@[simp] theorem lift_error (e : ε) (s : σ) : (lift (.error e) : EStateM ε σ α) s = .error e s := rfl

theorem bind_run (x : EStateM ε σ α) (f : α → EStateM ε σ β) (s : σ) :
    (x >>= f) s = match x s with
      | .ok a t => f a t
      | .error e t => .error e t := by
  simp only [bind,EStateM.bind]
  cases x s <;> rfl

theorem bind_of_ok {x : EStateM ε σ α} {f : α → EStateM ε σ β} {s t : σ} {a : α} (first : x s = .ok a t) :
    (x >>= f) s = f a t := by
  rw [bind_run,first]

theorem bind_of_error {x : EStateM ε σ α} {f : α → EStateM ε σ β} {s t : σ} {e : ε} (first : x s = .error e t) :
    (x >>= f) s = .error e t := by
  rw [bind_run,first]

theorem bind_ok {x : EStateM ε σ α} {f : α → EStateM ε σ β} {s u : σ} {b : β} :
    (x >>= f) s = .ok b u ↔ ∃ a t, x s = .ok a t ∧ f a t = .ok b u := by
  rw [bind_run]
  cases x s with
  | ok a t => simp
  | error e t => simp

theorem bind_error {x : EStateM ε σ α} {f : α → EStateM ε σ β} {s u : σ} {e : ε} :
    (x >>= f) s = .error e u ↔ x s = .error e u ∨ ∃ a t, x s = .ok a t ∧ f a t = .error e u := by
  rw [bind_run]
  cases x s with
  | ok a t => simp
  | error e t => simp

theorem lift_eq_ok {x : Except ε α} {s t : σ} {a : α} : lift x s = .ok a t ↔ x = .ok a ∧ t = s := by
  cases x with
  | ok b => simp [eq_comm]
  | error e => simp

theorem lift_eq_error {x : Except ε α} {s t : σ} {e : ε} : lift x s = .error e t ↔ x = .error e ∧ t = s := by
  cases x with
  | ok b => simp
  | error e => simp [eq_comm]

@[simp] theorem get_bind (f : σ → EStateM ε σ β) (s : σ) : (get >>= f) s = f s s := rfl
@[simp] theorem set_bind (t : σ) (f : PUnit → EStateM ε σ β) (s : σ) : (set t >>= f) s = f ⟨⟩ t := rfl
@[simp] theorem modify_bind (g : σ → σ) (f : PUnit → EStateM ε σ β) (s : σ) : (modify g >>= f) s = f ⟨⟩ (g s) := rfl

theorem lift_bind_ok {x : Except ε α} {f : α → EStateM ε σ β} {s u : σ} {b : β} :
    (lift x >>= f) s = .ok b u ↔ ∃ a, x = .ok a ∧ f a s = .ok b u := by
  rw [bind_run]
  cases x <;> simp

theorem lift_bind_error {x : Except ε α} {f : α → EStateM ε σ β} {s u : σ} {e : ε} :
    (lift x >>= f) s = .error e u ↔ (x = .error e ∧ u = s) ∨ ∃ a, x = .ok a ∧ f a s = .error e u := by
  rw [bind_run]
  cases x <;> simp [eq_comm]

theorem lift_bind_run (x : Except ε α) (f : α → EStateM ε σ β) (s : σ) :
    (lift x >>= f) s = match x with
      | .ok a => f a s
      | .error e => .error e s := by
  cases x <;> rfl

theorem zoom_ok {get : τ → σ} {set : τ → σ → τ} {x : EStateM ε σ α} {t u : τ} {a : α} :
    zoom get set x t = .ok a u ↔ ∃ s, x (get t) = .ok a s ∧ u = set t s := by
  rw [zoom]
  cases x (get t) with
  | ok b s => simp [eq_comm]
  | error e s => simp

theorem zoom_error {get : τ → σ} {set : τ → σ → τ} {x : EStateM ε σ α} {t u : τ} {e : ε} :
    zoom get set x t = .error e u ↔ ∃ s, x (get t) = .error e s ∧ u = set t s := by
  rw [zoom]
  cases x (get t) with
  | ok b s => simp
  | error e s => simp [eq_comm]

/-- A computation whose errors are reported as others. -/
def rethrow {φ : Type} (f : ε → φ) (x : EStateM ε σ α) : EStateM φ σ α := fun s =>
  match x s with
  | .ok a t => .ok a t
  | .error e t => .error (f e) t

/-- A computation, and what is done if it fails before its error is passed on. -/
def orElseDo (x : EStateM ε σ α) (cleanup : EStateM ε σ Unit) : EStateM ε σ α := fun s =>
  match x s with
  | .ok a t => .ok a t
  | .error e t => .error e (after cleanup t)

theorem rethrow_ok {φ : Type} {f : ε → φ} {x : EStateM ε σ α} {s t : σ} {a : α} :
    rethrow f x s = .ok a t ↔ x s = .ok a t := by
  rw [rethrow]
  cases x s with
  | ok b u => simp
  | error e u => simp

theorem rethrow_error {φ : Type} {f : ε → φ} {x : EStateM ε σ α} {s t : σ} {d : φ} :
    rethrow f x s = .error d t ↔ ∃ e, x s = .error e t ∧ d = f e := by
  rw [rethrow]
  cases x s with
  | ok b u => simp
  | error e u =>
    simp only [EStateM.Result.error.injEq]
    constructor
    · rintro ⟨rfl,rfl⟩
      exact ⟨e,⟨rfl,rfl⟩,rfl⟩
    · rintro ⟨_,⟨rfl,rfl⟩,rfl⟩
      exact ⟨rfl,rfl⟩

theorem orElseDo_ok {x : EStateM ε σ α} {cleanup : EStateM ε σ Unit} {s t : σ} {a : α} :
    orElseDo x cleanup s = .ok a t ↔ x s = .ok a t := by
  rw [orElseDo]
  cases x s with
  | ok b u => simp
  | error e u => simp

end Effects
