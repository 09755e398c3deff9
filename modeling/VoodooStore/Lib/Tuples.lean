import VoodooStore.Lib.Endian

/-!
# Tuples of byte strings

A tuple is spelled component by component, each behind its length in a fixed
number of bytes. Where the lengths fit, a spelling can be read in one way only:
no tuple begins with another of the same number of components.
-/
namespace Tuples
variable {width : Nat} {a b r s : List UInt8} {as bs : List (List UInt8)}

def component (width : Nat) (bytes : List UInt8) : List UInt8 := Endian.toBe width bytes.length ++ bytes

def tuple (width : Nat) (components : List (List UInt8)) : List UInt8 := components.flatMap (component width)

/-- The length can be written. -/
def Fits (width : Nat) (bytes : List UInt8) : Prop := bytes.length < 256 ^ width

theorem append_front {x y x' y' : List UInt8} (same : x.length = x'.length) : x ++ y <+: x' ++ y' ↔ x = x' ∧ y <+: y' := by
  constructor
  · rintro ⟨rest,whole⟩
    rw [List.append_assoc] at whole
    obtain ⟨first,second⟩ := List.append_inj whole same
    exact ⟨first,rest,second⟩
  · rintro ⟨rfl,inside⟩
    exact List.prefix_append_right_inj _ |>.mpr inside

theorem component_front (fitsA : Fits width a) (fitsB : Fits width b) :
    component width a ++ r <+: component width b ++ s ↔ a = b ∧ r <+: s := by
  unfold component
  rw [List.append_assoc,List.append_assoc,append_front (by simp)]
  constructor
  · rintro ⟨lengths,rest⟩
    exact (append_front (Endian.toBe_injective fitsA fitsB lengths)).mp rest
  · rintro ⟨rfl,rest⟩
    exact ⟨rfl,(append_front rfl).mpr ⟨rfl,rest⟩⟩

/-- A tuple is read in one way only. -/
theorem tuple_front (same : as.length = bs.length) (fitsA : ∀ c ∈ as, Fits width c) (fitsB : ∀ c ∈ bs, Fits width c) :
    tuple width as ++ r <+: tuple width bs ++ s ↔ as = bs ∧ r <+: s := by
  induction as generalizing bs with
  | nil =>
    cases bs with
    | nil => simp [tuple]
    | cons b bs => cases same
  | cons a as ih =>
    cases bs with
    | nil => cases same
    | cons b bs =>
      have first : ∀ (c : List UInt8) (cs : List (List UInt8)) (t : List UInt8),
          tuple width (c :: cs) ++ t = component width c ++ (tuple width cs ++ t) := by simp [tuple]
      rw [first,first,component_front (fitsA a (by simp)) (fitsB b (by simp)),
        ih (by simpa using same) (fun c member => fitsA c (by simp [member])) (fun c member => fitsB c (by simp [member]))]
      rw [List.cons.injEq,and_assoc]

theorem tuple_injective (same : as.length = bs.length) (fitsA : ∀ c ∈ as, Fits width c) (fitsB : ∀ c ∈ bs, Fits width c)
    (equal : tuple width as ++ r = tuple width bs ++ s) : as = bs ∧ r = s := by
  have front : tuple width as ++ r <+: tuple width bs ++ s := by rw [equal]
  obtain ⟨rfl,-⟩ := (tuple_front same fitsA fitsB).mp front
  exact ⟨rfl,List.append_cancel_left equal⟩

end Tuples
