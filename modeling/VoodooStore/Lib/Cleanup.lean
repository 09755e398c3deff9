import VoodooStore.Lib.Hoare

/-!
# Rules for computations that clean up after themselves

A step that fails may leave something behind; a cleanup takes it away before the
error is passed on. What is known when a part succeeds is kept in the
postconditions, so that a chain fails only in states that a caller may see.
-/
namespace Effects
variable {ε φ σ α β : Type} {pre fail : σ → Prop} {x : EStateM ε σ α} {post : α → σ → Prop}

/-- What a failing part leaves in the middle is put right by the cleanup. -/
theorem Meets.orElseDo {middle : σ → Prop} {cleanup : EStateM ε σ Unit} (meets : Meets pre x post middle)
    (cleans : ∀ s, middle s → fail (Effects.after cleanup s)) : Meets pre (orElseDo x cleanup) post fail := by
  intro s holds
  unfold Effects.orElseDo
  cases result : x s with
  | ok a t => exact meets.ok holds result
  | error e t => exact cleans t (meets.error holds result)

theorem Meets.imp {later : α → σ → Prop} {worse : σ → Prop} (meets : Meets pre x post fail)
    (ok : ∀ a s, post a s → later a s) (error : ∀ s, fail s → worse s) : Meets pre x later worse := by
  intro s holds
  cases result : x s with
  | ok a t => exact ok a t (meets.ok holds result)
  | error e t => exact error t (meets.error holds result)

theorem meets_pure {a : α} (holds : ∀ s, pre s → post a s) : Meets pre (pure a : EStateM ε σ α) post fail := holds

theorem meets_throw {e : ε} (fails : ∀ s, pre s → fail s) : Meets pre (throw e : EStateM ε σ α) post fail := fails

theorem Meets.ite {c : Prop} [Decidable c] {y : EStateM ε σ α} (first : c → Meets pre x post fail)
    (second : ¬ c → Meets pre y post fail) : Meets pre (if c then x else y) post fail := by
  by_cases holds : c
  · rw [if_pos holds]
    exact first holds
  · rw [if_neg holds]
    exact second holds

theorem meets_lift {r : Except ε α} : Meets pre (lift r) (fun a s => r = .ok a ∧ pre s) pre := by
  intro s holds
  cases r with
  | ok a => exact ⟨rfl,holds⟩
  | error e => exact holds

/-- A computation that starts by looking at the state. -/
theorem meets_get {f : σ → EStateM ε σ α} (meets : ∀ s, Meets (fun t => t = s ∧ pre t) (f s) post fail) :
    Meets pre (get >>= f) post fail := by
  intro s holds
  exact meets s s ⟨rfl,holds⟩

/-- A computation that is known from the results it has in the states that are met. -/
theorem meets_of_results (ok : ∀ s t a, pre s → x s = .ok a t → post a t)
    (error : ∀ s t e, pre s → x s = .error e t → fail t) : Meets pre x post fail := by
  intro s holds
  cases result : x s with
  | ok a t => exact ok s t a holds result
  | error e t => exact error s t e holds result

end Effects
