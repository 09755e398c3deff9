import Mathlib.Data.List.Forall2
import Mathlib.Tactic

/-!
# Lists that are computed from lists

A computation that fails nowhere on a list gives one result for each element, in
the order of the elements.
-/
namespace Mapping
variable {ε α β γ : Type} {f : α → Except ε β} {xs : List α} {ys : List β}

theorem mapM_total (total : ∀ x ∈ xs, ∃ y, f x = .ok y) : ∃ ys, xs.mapM f = .ok ys := by
  induction xs with
  | nil => exact ⟨[],rfl⟩
  | cons x xs ih =>
    obtain ⟨y,first⟩ := total x (by simp)
    obtain ⟨rest,later⟩ := ih (fun other member => total other (by simp [member]))
    refine ⟨y :: rest,?_⟩
    rw [List.mapM_cons,first,later]
    rfl

theorem mapM_forall (done : xs.mapM f = .ok ys) : List.Forall₂ (fun x y => f x = .ok y) xs ys := by
  induction xs generalizing ys with
  | nil =>
    cases done
    exact .nil
  | cons x xs ih =>
    rw [List.mapM_cons] at done
    cases first : f x with
    | error e =>
      rw [first] at done
      cases done
    | ok y =>
      cases later : xs.mapM f with
      | error e =>
        rw [first,later] at done
        cases done
      | ok rest =>
        rw [first,later] at done
        cases done
        exact .cons first (ih later)

theorem mapM_of_forall (pairs : List.Forall₂ (fun x y => f x = .ok y) xs ys) : xs.mapM f = .ok ys := by
  induction pairs with
  | nil => rfl
  | cons first _ ih =>
    rw [List.mapM_cons,first,ih]
    rfl

/-- Each result comes from an element of the list, and what is the same on both sides is so in their order. -/
theorem forall_mapped {related : α → β → Prop} {f : α → γ} {g : β → γ} (pairs : List.Forall₂ related xs ys)
    (same : ∀ x ∈ xs, ∀ y, related x y → f x = g y) : xs.map f = ys.map g ∧ ∀ y ∈ ys, ∃ x ∈ xs, related x y := by
  induction pairs with
  | nil => exact ⟨rfl,by simp⟩
  | @cons x y xs ys first _ ih =>
    obtain ⟨mapped,from_list⟩ := ih (fun other member => same other (by simp [member]))
    refine ⟨by rw [List.map_cons,List.map_cons,mapped,same x (by simp) y first],?_⟩
    intro other member
    rcases List.mem_cons.mp member with rfl | later
    · exact ⟨x,by simp,first⟩
    · obtain ⟨source,inside,relates⟩ := from_list other later
      exact ⟨source,by simp [inside],relates⟩

/-- Each element of the list has a result. -/
theorem forall_reached {related : α → β → Prop} (pairs : List.Forall₂ related xs ys) : ∀ x ∈ xs, ∃ y ∈ ys, related x y := by
  induction pairs with
  | nil => simp
  | @cons x y xs ys first _ ih =>
    intro other member
    rcases List.mem_cons.mp member with rfl | later
    · exact ⟨y,by simp,first⟩
    · obtain ⟨result,inside,relates⟩ := ih other later
      exact ⟨result,by simp [inside],relates⟩

/-- Around one of the results there are those before and those behind it. -/
theorem forall_around {related : α → β → Prop} {before behind : List β} {y : β} (pairs : List.Forall₂ related xs (before ++ y :: behind)) :
    ∃ first x last, xs = first ++ x :: last ∧ List.Forall₂ related first before ∧ related x y ∧ List.Forall₂ related last behind := by
  induction before generalizing xs with
  | nil =>
    obtain ⟨x,last,relates,rest,rfl⟩ := List.forall₂_cons_right_iff.mp pairs
    exact ⟨[],x,last,rfl,.nil,relates,rest⟩
  | cons z before ih =>
    obtain ⟨w,others,relates,rest,rfl⟩ := List.forall₂_cons_right_iff.mp pairs
    obtain ⟨first,x,last,rfl,low,here,high⟩ := ih rest
    exact ⟨w :: first,x,last,rfl,.cons relates low,here,high⟩

theorem toOption_some {x : Except ε α} {a : α} : x.toOption = some a ↔ x = .ok a := by
  cases x <;> simp [Except.toOption]

end Mapping
