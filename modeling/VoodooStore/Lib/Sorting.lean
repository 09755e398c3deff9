import Mathlib.Data.List.Sort

/-!
# Sorting by a comparison

Where no two different elements compare as equal, the sorted list does not
depend on the order in which the elements are given.
-/
namespace Sorting
variable {α : Type} {cmp : α → α → Ordering} {xs ys : List α}

/-- The elements in the order of the comparison. -/
def sorted (cmp : α → α → Ordering) (xs : List α) : List α := xs.mergeSort (fun a b => (cmp a b).isLE)

theorem sorted_perm (xs : List α) : (sorted cmp xs).Perm xs := List.mergeSort_perm xs _

theorem pairwise_sorted [Std.TransCmp cmp] (xs : List α) : (sorted cmp xs).Pairwise (fun a b => (cmp a b).isLE = true) := by
  refine List.pairwise_mergeSort ?_ ?_ xs
  · intro a b c first second
    exact Std.TransCmp.isLE_trans first second
  · intro a b
    cases order : cmp a b with
    | lt => rfl
    | eq => rfl
    | gt =>
      have other : cmp b a = .lt := Std.OrientedCmp.lt_of_gt order
      rw [other]
      rfl

theorem sorted_of_perm [Std.TransCmp cmp] (same : xs.Perm ys) (distinct : ∀ a ∈ xs, ∀ b ∈ xs, cmp a b = .eq → a = b) :
    sorted cmp xs = sorted cmp ys := by
  have both : (sorted cmp xs).Perm (sorted cmp ys) := (sorted_perm xs).trans (same.trans (sorted_perm ys).symm)
  refine both.eq_of_pairwise ?_ (pairwise_sorted xs) (pairwise_sorted ys)
  intro a b first second low high
  have inside : b ∈ xs := same.mem_iff.mpr ((sorted_perm ys).mem_iff.mp second)
  exact distinct a ((sorted_perm xs).mem_iff.mp first) b inside (Std.OrientedCmp.isLE_antisymm low high)

end Sorting
