import VoodooStore.Lib.Effects

/-!
# Rules for computations that keep their state when they fail

`Reads` says that a computation leaves the state alone. `Meets` is a triple with
one postcondition for success and one for failure; a chain of computations meets
what its parts meet.
-/
namespace Effects
variable {ε φ σ τ α β : Type}

/-- The computation leaves the state alone, whether it fails or not. -/
def Reads (x : EStateM ε σ α) : Prop := ∀ s, after x s = s

theorem Reads.ok {x : EStateM ε σ α} {s t : σ} {a : α} (reads : Reads x) (done : x s = .ok a t) : t = s := by
  have same := reads s
  rw [after,done] at same
  exact same

theorem Reads.error {x : EStateM ε σ α} {s t : σ} {e : ε} (reads : Reads x) (failed : x s = .error e t) : t = s := by
  have same := reads s
  rw [after,failed] at same
  exact same

theorem reads_pure (a : α) : Reads (pure a : EStateM ε σ α) := fun _ => rfl
theorem reads_throw (e : ε) : Reads (throw e : EStateM ε σ α) := fun _ => rfl
theorem reads_get : Reads (get : EStateM ε σ σ) := fun _ => rfl

theorem reads_lift (x : Except ε α) : Reads (lift x : EStateM ε σ α) := by
  intro s
  cases x <;> rfl

theorem Reads.bind {x : EStateM ε σ α} {f : α → EStateM ε σ β} (first : Reads x) (second : ∀ a, Reads (f a)) :
    Reads (x >>= f) := by
  intro s
  unfold after
  rw [bind_run]
  cases result : x s with
  | ok a t =>
    rw [first.ok result]
    exact second a s
  | error e t => exact first.error result

theorem Reads.rethrow {f : ε → φ} {x : EStateM ε σ α} (reads : Reads x) : Reads (rethrow f x) := by
  intro s
  unfold after Effects.rethrow
  cases result : x s with
  | ok a t => exact reads.ok result
  | error e t => exact reads.error result

theorem Reads.zoom {get : τ → σ} {set : τ → σ → τ} {x : EStateM ε σ α} (reads : Reads x) (same : ∀ t, set t (get t) = t) :
    Reads (zoom get set x) := by
  intro t
  unfold after Effects.zoom
  cases result : x (get t) with
  | ok a s =>
    rw [reads.ok result]
    exact same t
  | error e s =>
    rw [reads.error result]
    exact same t

/-- From a state with `pre`, success leads to one with `post` and failure to one with `fail`. -/
def Meets (pre : σ → Prop) (x : EStateM ε σ α) (post : α → σ → Prop) (fail : σ → Prop) : Prop :=
  ∀ s, pre s → match x s with
    | .ok a t => post a t
    | .error _ t => fail t

variable {pre fail : σ → Prop} {x : EStateM ε σ α} {post : α → σ → Prop}

theorem Meets.ok (meets : Meets pre x post fail) {s t : σ} {a : α} (holds : pre s) (done : x s = .ok a t) : post a t := by
  have met := meets s holds
  rw [done] at met
  exact met

theorem Meets.error (meets : Meets pre x post fail) {s t : σ} {e : ε} (holds : pre s) (failed : x s = .error e t) :
    fail t := by
  have met := meets s holds
  rw [failed] at met
  exact met

/-- Where success is a case of failure, the state that is left is one of failure. -/
theorem Meets.after (meets : Meets pre x post fail) (weaker : ∀ a t, post a t → fail t) {s : σ} (holds : pre s) :
    fail (after x s) := by
  unfold Effects.after
  cases result : x s with
  | ok a t => exact weaker a t (meets.ok holds result)
  | error e t => exact meets.error holds result

theorem Meets.bind {f : α → EStateM ε σ β} {last : β → σ → Prop} (first : Meets pre x post fail)
    (second : ∀ a, Meets (post a) (f a) last fail) : Meets pre (x >>= f) last fail := by
  intro s holds
  rw [bind_run]
  cases result : x s with
  | ok a t => exact second a t (first.ok holds result)
  | error e t => exact first.error holds result

theorem Meets.rethrow {f : ε → φ} (meets : Meets pre x post fail) : Meets pre (rethrow f x) post fail := by
  intro s holds
  unfold Effects.rethrow
  cases result : x s with
  | ok a t => exact meets.ok holds result
  | error e t => exact meets.error holds result

theorem Meets.weaken {stronger weaker : σ → Prop} (meets : Meets pre x post fail) (before : ∀ s, stronger s → pre s)
    (after : ∀ s, fail s → weaker s) : Meets stronger x post weaker := by
  intro s holds
  cases result : x s with
  | ok a t => exact meets.ok (before s holds) result
  | error e t => exact after t (meets.error (before s holds) result)

theorem Reads.meets (reads : Reads x) (pre : σ → Prop) : Meets pre x (fun _ => pre) pre := by
  intro s holds
  cases result : x s with
  | ok a t =>
    rw [← reads.ok result] at holds
    exact holds
  | error e t =>
    rw [← reads.error result] at holds
    exact holds

end Effects
