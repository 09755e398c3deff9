import Mathlib.Data.List.Induction

/-!
# Choosing the best in one pass

A pass over a list keeps a candidate and replaces it by what is strictly better.
If being better is a strict weak order, the one that is left is the first among
the best.
-/
namespace Choosing
variable {α : Type} {better : α → α → Bool} {xs : List α} {best : α}

def keep (better : α → α → Bool) (candidate : Option α) (x : α) : Option α :=
  if candidate.all (better x) then some x else candidate

def choose (better : α → α → Bool) (xs : List α) : Option α := xs.foldl (keep better) none

/-- What is better than another is better than what is not better than that. -/
structure StrictWeak (better : α → α → Bool) : Prop where
  trans : ∀ {a b c}, better a b = true → better b c = true → better a c = true
  weak : ∀ {a b c}, better a b = true → better c b = false → better a c = true

@[simp] theorem choose_nil : choose better ([] : List α) = none := rfl

theorem choose_snoc (xs : List α) (x : α) : choose better (xs ++ [x]) = keep better (choose better xs) x := by
  simp [choose]

theorem choose_eq_none : choose better xs = none ↔ xs = [] := by
  induction xs using List.reverseRecOn with
  | nil => simp
  | append_singleton xs x ih =>
    rw [choose_snoc,keep]
    split
    · simp
    · rename_i worse
      constructor
      · intro none
        rw [none] at worse
        exact absurd rfl worse
      · intro empty
        simp at empty

/-- The chosen one is better than all before it, and none behind it is better. -/
theorem choose_first (order : StrictWeak better) (chosen : choose better xs = some best) :
    ∃ before after, xs = before ++ best :: after ∧ (∀ x ∈ before, better best x = true) ∧ ∀ x ∈ after, better x best = false := by
  induction xs using List.reverseRecOn generalizing best with
  | nil => cases chosen
  | append_singleton xs x ih =>
    rw [choose_snoc,keep] at chosen
    cases earlier : choose better xs with
    | none =>
      rw [earlier] at chosen
      cases chosen
      rw [choose_eq_none.mp earlier]
      exact ⟨[],[],rfl,by simp,by simp⟩
    | some old =>
      obtain ⟨before,after,rfl,first,rest⟩ := ih earlier
      rw [earlier] at chosen
      split at chosen
      · rename_i improves
        cases chosen
        have improves : better x old = true := improves
        refine ⟨before ++ old :: after,[],by simp,?_,by simp⟩
        intro y member
        rcases List.mem_append.mp member with early | late
        · exact order.trans improves (first y early)
        · rcases List.mem_cons.mp late with rfl | behind
          · exact improves
          · exact order.weak improves (rest y behind)
      · rename_i worse
        cases chosen
        have worse : better x best = false := by simpa using worse
        refine ⟨before,after ++ [x],by simp,first,?_⟩
        intro y member
        rcases List.mem_append.mp member with behind | last
        · exact rest y behind
        · rw [List.mem_singleton.mp last]
          exact worse

theorem choose_mem (order : StrictWeak better) (chosen : choose better xs = some best) : best ∈ xs := by
  obtain ⟨before,after,rfl,-,-⟩ := choose_first order chosen
  simp

end Choosing
