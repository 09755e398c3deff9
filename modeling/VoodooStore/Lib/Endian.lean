import Mathlib

/-!
# Fixed-width numbers as bytes

Little-endian and big-endian spellings of a number in a fixed number of bytes.
Both directions are exact: reading what was written gives the number back, and
writing what was read gives the bytes back. Big-endian spellings of one width
compare, byte by byte, as their numbers do, whatever follows them.
-/
namespace Endian

/-- The low `width` bytes of a number, least significant first. -/
def toLe : Nat → Nat → List UInt8
  | 0, _ => []
  | width+1, n => UInt8.ofNat n :: toLe width (n / 256)

/-- The number that bytes spell, least significant first. -/
def ofLe : List UInt8 → Nat
  | [] => 0
  | byte :: rest => byte.toNat + 256 * ofLe rest

/-- The low `width` bytes of a number, most significant first. -/
def toBe (width n : Nat) : List UInt8 := (toLe width n).reverse

/-- The number that bytes spell, most significant first. -/
def ofBe (bytes : List UInt8) : Nat := ofLe bytes.reverse

@[simp] theorem toLe_length (width n : Nat) : (toLe width n).length = width := by
  induction width generalizing n with
  | zero => rfl
  | succ width ih => simp [toLe,ih]

@[simp] theorem toBe_length (width n : Nat) : (toBe width n).length = width := by
  simp [toBe]

theorem ofLe_lt (bytes : List UInt8) : ofLe bytes < 256 ^ bytes.length := by
  induction bytes with
  | nil => simp [ofLe]
  | cons byte rest ih =>
    have small : byte.toNat < 256 := byte.toNat_lt
    simp only [ofLe,List.length_cons,pow_succ]
    omega

theorem ofLe_toLe {width n : Nat} (fits : n < 256 ^ width) : ofLe (toLe width n) = n := by
  induction width generalizing n with
  | zero => simp only [pow_zero,Nat.lt_one_iff] at fits; simp [toLe,ofLe,fits]
  | succ width ih =>
    have quotient : n / 256 < 256 ^ width := by
      rw [pow_succ] at fits
      exact Nat.div_lt_of_lt_mul (by omega)
    have digit : (UInt8.ofNat n).toNat = n % 256 := by simp
    rw [toLe,ofLe,ih quotient,digit]
    omega

theorem toLe_ofLe {width : Nat} {bytes : List UInt8} (size : bytes.length = width) :
    toLe width (ofLe bytes) = bytes := by
  induction bytes generalizing width with
  | nil => subst size; rfl
  | cons byte rest ih =>
    subst size
    have small : byte.toNat < 256 := byte.toNat_lt
    have digit : UInt8.ofNat (byte.toNat + 256 * ofLe rest) = byte := by
      apply UInt8.toNat_inj.mp
      rw [UInt8.toNat_ofNat']
      omega
    have quotient : (byte.toNat + 256 * ofLe rest) / 256 = ofLe rest := by omega
    simp only [List.length_cons,ofLe,toLe,digit,quotient,ih rfl]

theorem toLe_injective {width m n : Nat} (left : m < 256 ^ width) (right : n < 256 ^ width)
    (same : toLe width m = toLe width n) : m = n := by
  rw [← ofLe_toLe left,← ofLe_toLe right,same]

theorem ofBe_lt (bytes : List UInt8) : ofBe bytes < 256 ^ bytes.length := by
  simpa [ofBe] using ofLe_lt bytes.reverse

theorem ofBe_toBe {width n : Nat} (fits : n < 256 ^ width) : ofBe (toBe width n) = n := by
  simp [ofBe,toBe,ofLe_toLe fits]

theorem toBe_ofBe {width : Nat} {bytes : List UInt8} (size : bytes.length = width) :
    toBe width (ofBe bytes) = bytes := by
  have reversed : bytes.reverse.length = width := by simpa using size
  simp [ofBe,toBe,toLe_ofLe reversed]

theorem toBe_injective {width m n : Nat} (left : m < 256 ^ width) (right : n < 256 ^ width)
    (same : toBe width m = toBe width n) : m = n :=
  toLe_injective left right (List.reverse_inj.mp same)

/-- The last big-endian byte is the low digit. -/
theorem toBe_succ (width n : Nat) : toBe (width+1) n = toBe width (n / 256) ++ [UInt8.ofNat n] := by
  simp [toBe,toLe]

/-- Comparing numbers is comparing quotients, then remainders. -/
theorem compare_div_mod (m n : Nat) :
    (compare (m / 256) (n / 256)).then (compare (m % 256) (n % 256)) = compare m n := by
  rcases Nat.lt_trichotomy m n with less | same | more
  · rw [Nat.compare_eq_lt.mpr less]
    rcases Nat.lt_or_eq_of_le (Nat.div_le_div_right (c := 256) less.le) with lower | equal
    · rw [Nat.compare_eq_lt.mpr lower]; rfl
    · have digits : m % 256 < n % 256 := by omega
      rw [Nat.compare_eq_eq.mpr equal,Nat.compare_eq_lt.mpr digits]; rfl
  · subst same; simp
  · rw [Nat.compare_eq_gt.mpr more]
    rcases Nat.lt_or_eq_of_le (Nat.div_le_div_right (c := 256) more.le) with lower | equal
    · rw [Nat.compare_eq_gt.mpr lower]; rfl
    · have digits : n % 256 < m % 256 := by omega
      rw [Nat.compare_eq_eq.mpr equal.symm,Nat.compare_eq_gt.mpr digits]; rfl

theorem compare_byte (a b : UInt8) : compare a b = compare a.toNat b.toNat := by
  show compareOfLessAndEq a b = compareOfLessAndEq a.toNat b.toNat
  simp [compareOfLessAndEq,UInt8.lt_iff_toNat_lt,← UInt8.toNat_inj]

/-- Big-endian spellings compare as numbers first, then by what follows them. -/
theorem compare_toBe_append {width m n : Nat} (left : m < 256 ^ width) (right : n < 256 ^ width)
    (s t : List UInt8) :
    compare (toBe width m ++ s) (toBe width n ++ t) = (compare m n).then (compare s t) := by
  induction width generalizing m n s t with
  | zero =>
    simp only [pow_zero,Nat.lt_one_iff] at left right
    simp [left,right,toBe,toLe]
  | succ width ih =>
    have quotient {k : Nat} (fits : k < 256 ^ (width+1)) : k / 256 < 256 ^ width := by
      rw [pow_succ] at fits
      exact Nat.div_lt_of_lt_mul (by omega)
    have byte (k : Nat) : (UInt8.ofNat k).toNat = k % 256 := by simp
    have digits : compare (UInt8.ofNat m) (UInt8.ofNat n) = compare (m % 256) (n % 256) := by
      rw [compare_byte,byte m,byte n]
    rw [toBe_succ,toBe_succ,List.append_assoc,List.append_assoc,ih (quotient left) (quotient right)]
    simp only [List.singleton_append,List.compare_cons_cons,digits]
    rw [← Ordering.then_assoc,compare_div_mod]

end Endian
