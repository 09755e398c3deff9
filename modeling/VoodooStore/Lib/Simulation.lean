import VoodooStore.Lib.Hoare

/-!
# Computations that mirror simpler ones

A computation on states mirrors another one on what is seen of them: it returns
the same and leaves the same to be seen, unless it fails with an error that the
simpler one knows nothing of. Such computations are put together from such parts.
-/
namespace Effects
variable {ε φ σ τ α β : Type}

/-- The computation does what the simpler one does to what is seen, or fails with an excused error. -/
def Mirrors (seen : σ → τ) (excused : ε → Prop) (x : EStateM ε σ α) (f : EStateM ε τ α) : Prop :=
  ∀ s, match x s with
    | .ok a t => f (seen s) = .ok a (seen t)
    | .error e t => f (seen s) = .error e (seen t) ∨ excused e

/-- A computation that is undone if it fails. -/
def atomically (f : EStateM ε τ α) : EStateM ε τ α := fun t =>
  match f t with
  | .ok a u => .ok a u
  | .error e _ => .error e t

theorem atomically_ok {f : EStateM ε τ α} {t u : τ} {a : α} : atomically f t = .ok a u ↔ f t = .ok a u := by
  rw [atomically]
  cases f t with
  | ok b v => simp
  | error e v => simp

section
variable {seen : σ → τ} {excused : ε → Prop} {x : EStateM ε σ α} {f : EStateM ε τ α}

theorem Mirrors.ok (mirrors : Mirrors seen excused x f) {s t : σ} {a : α} (done : x s = .ok a t) : f (seen s) = .ok a (seen t) := by
  have here := mirrors s
  rw [done] at here
  exact here

theorem Mirrors.error (mirrors : Mirrors seen excused x f) {s t : σ} {e : ε} (failed : x s = .error e t) :
    f (seen s) = .error e (seen t) ∨ excused e := by
  have here := mirrors s
  rw [failed] at here
  exact here

/-- Where the simpler computation succeeds, so does the one that mirrors it, unless an error is excused. -/
theorem Mirrors.succeeds (mirrors : Mirrors seen excused x f) {s : σ} {u : τ} {a : α} (done : f (seen s) = .ok a u) :
    (∃ t, x s = .ok a t ∧ seen t = u) ∨ ∃ e t, x s = .error e t ∧ excused e := by
  cases result : x s with
  | ok b t =>
    have same := mirrors.ok result
    rw [done] at same
    cases same
    exact .inl ⟨t,rfl,rfl⟩
  | error e t =>
    rcases mirrors.error result with same | other
    · rw [done] at same
      cases same
    · exact .inr ⟨e,t,rfl,other⟩

theorem mirrors_pure (a : α) : Mirrors seen excused (pure a) (pure a) := fun _ => rfl

theorem mirrors_throw (e : ε) : Mirrors seen excused (throw e : EStateM ε σ α) (throw e) := fun _ => .inl rfl

theorem Mirrors.bind {g : α → EStateM ε σ β} {h : α → EStateM ε τ β} (first : Mirrors seen excused x f)
    (second : ∀ a, Mirrors seen excused (g a) (h a)) : Mirrors seen excused (x >>= g) (f >>= h) := by
  intro s
  rw [bind_run]
  cases result : x s with
  | ok a t =>
    rw [bind_of_ok (first.ok result)]
    exact second a t
  | error e t =>
    rcases first.error result with same | other
    · exact .inl (bind_of_error same)
    · exact .inr other

theorem Mirrors.lifted {result : Except ε α} {g : α → EStateM ε σ β} {h : α → EStateM ε τ β}
    (second : ∀ a, result = .ok a → Mirrors seen excused (g a) (h a)) : Mirrors seen excused (lift result >>= g) (lift result >>= h) := by
  cases result with
  | ok a => exact second a rfl
  | error e => exact fun _ => .inl rfl

theorem Mirrors.rethrow {excused' : φ → Prop} {g : ε → φ} (mirrors : Mirrors seen excused x f) (passed : ∀ e, excused e → excused' (g e)) :
    Mirrors seen excused' (Effects.rethrow g x) (Effects.rethrow g f) := by
  intro s
  cases result : Effects.rethrow g x s with
  | ok a t => exact rethrow_ok.mpr (mirrors.ok (rethrow_ok.mp result))
  | error e t =>
    obtain ⟨d,failed,rfl⟩ := rethrow_error.mp result
    rcases mirrors.error failed with same | other
    · exact .inl (rethrow_error.mpr ⟨d,same,rfl⟩)
    · exact .inr (passed d other)

/-- Both look at the state, and see the same. -/
theorem Mirrors.looks {look : σ → Except ε α} {look' : τ → Except ε α} {g : α → EStateM ε σ β} {h : α → EStateM ε τ β}
    (same : ∀ s, look s = look' (seen s)) (second : ∀ s a, look s = .ok a → Mirrors seen excused (g a) (h a)) :
    Mirrors seen excused (get >>= fun s => lift (look s) >>= g) (get >>= fun t => lift (look' t) >>= h) := by
  intro s
  rw [get_bind,get_bind,← same s]
  cases looked : look s with
  | ok a => exact second s a looked s
  | error e => exact .inl rfl

/-- What is read decides how to go on. -/
theorem Mirrors.reads {g : σ → EStateM ε σ β} {h : τ → EStateM ε τ β} (second : ∀ s, Mirrors seen excused (g s) (h (seen s))) :
    Mirrors seen excused (get >>= g) (get >>= h) := by
  intro s
  rw [get_bind,get_bind]
  exact second s s

end

end Effects
