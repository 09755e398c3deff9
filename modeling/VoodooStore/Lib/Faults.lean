import Mathlib.Tactic

/-!
# Computations that may panic

Such a computation ends with a value, with an error that it returns, or in a
panic. `Returns` compares it with one that cannot panic: where the two end in the
same way, there is no panic. A chain of computations returns what its parts return.
-/
namespace Faults
variable {ε φ α β : Type}

/-- How a computation ends that has no value. -/
inductive Fault (ε : Type)
  | Panicked
  | Returned (error : ε)
  deriving DecidableEq

abbrev Careful (ε α : Type) := Except (Fault ε) α

def refuse (error : ε) : Careful ε α := .error (.Returned error)

/-- The result of a computation that cannot panic. -/
def pass : Except ε α → Careful ε α
  | .ok a => .ok a
  | .error e => refuse e

/-- An error is passed on as one of another type. -/
def rethrown (f : ε → φ) : Careful ε α → Careful φ α
  | .ok a => .ok a
  | .error .Panicked => .error .Panicked
  | .error (.Returned e) => refuse (f e)

/-- A sum of machine integers, which panics where it does not fit. -/
def add (bound a b : Nat) : Careful ε Nat := if a + b < bound then .ok (a + b) else .error .Panicked

/-- It ends as this one does, which cannot panic. -/
def Returns (x : Careful ε α) (y : Except ε α) : Prop := x = pass y

theorem Returns.calm {x : Careful ε α} {y : Except ε α} (returns : Returns x y) : x ≠ .error .Panicked := by
  rw [returns]
  cases y with
  | ok a => simp [pass]
  | error e => simp [pass,refuse]

theorem Returns.ok {x : Careful ε α} {y : Except ε α} (returns : Returns x y) {a : α} : x = .ok a ↔ y = .ok a := by
  rw [returns]
  cases y with
  | ok b => simp [pass]
  | error e => simp [pass,refuse]

theorem returns_pass (y : Except ε α) : Returns (pass y) y := rfl
theorem returns_ok (a : α) : Returns (.ok a : Careful ε α) (.ok a) := rfl
theorem returns_refuse (e : ε) : Returns (refuse e : Careful ε α) (.error e) := rfl

theorem Returns.bind {x : Careful ε α} {y : Except ε α} {f : α → Careful ε β} {g : α → Except ε β} (first : Returns x y)
    (second : ∀ a, y = .ok a → Returns (f a) (g a)) : Returns (x >>= f) (y >>= g) := by
  rw [first]
  cases y with
  | ok a => exact second a rfl
  | error e => rfl

theorem Returns.ite {c : Prop} [Decidable c] {x x' : Careful ε α} {y y' : Except ε α} (first : c → Returns x y)
    (second : ¬ c → Returns x' y') : Returns (if c then x else x') (if c then y else y') := by
  by_cases here : c
  · rw [if_pos here,if_pos here]
    exact first here
  · rw [if_neg here,if_neg here]
    exact second here

theorem refused_bind {c : Prop} [Decidable c] (e : ε) (x : Careful ε α) (f : α → Careful ε β) :
    ((if c then refuse e else x) >>= f) = if c then refuse e else x >>= f := by
  by_cases here : c
  · rw [if_pos here,if_pos here]
    rfl
  · rw [if_neg here,if_neg here]

theorem Returns.rethrown {x : Careful ε α} {y : Except ε α} (returns : Returns x y) (f : ε → φ) :
    Returns (rethrown f x) (y.mapError f) := by
  rw [returns]
  cases y with
  | ok a => rfl
  | error e => rfl

end Faults
