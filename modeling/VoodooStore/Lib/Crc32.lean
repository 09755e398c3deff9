import Mathlib

/-!
# The CRC-32 of a byte string

The reflected CRC-32 with polynomial `0xEDB88320`, one bit at a time. Every
step of the remainder is injective in the remainder and in the byte it takes
in, so two strings that differ in one byte never share a checksum.
-/
namespace Crc32

def polynomial : BitVec 32 := 0xEDB88320#32

/-- One bit of the remainder leaves; the polynomial is added when it was set. -/
def shift (c : BitVec 32) : BitVec 32 :=
  if c.getLsbD 0 then (c >>> 1) ^^^ polynomial else c >>> 1

/-- The remainder after one more byte. -/
def update (c : BitVec 32) (byte : UInt8) : BitVec 32 :=
  shift^[8] (c ^^^ byte.toBitVec.setWidth 32)

def crc32 (bytes : List UInt8) : UInt32 :=
  .ofBitVec (~~~ bytes.foldl update (BitVec.allOnes 32))

example : crc32 [49,50,51,52,53,54,55,56,57] = 0xCBF43926 := by decide +kernel

/-- The top bit of a shifted remainder says which bit left. -/
theorem shift_top (c : BitVec 32) : (shift c).getLsbD 31 = c.getLsbD 0 := by
  have outside : c.getLsbD 32 = false := BitVec.getLsbD_of_ge c 32 (by omega)
  have top : polynomial.getLsbD 31 = true := by decide
  unfold shift
  split
  · rename_i set
    rw [BitVec.getLsbD_xor,BitVec.getLsbD_ushiftRight,outside,top,set]
    rfl
  · rename_i clear
    rw [BitVec.getLsbD_ushiftRight,outside]
    exact ((Bool.not_eq_true _).mp clear).symm

theorem shift_injective : Function.Injective shift := by
  intro a b same
  have low : a.getLsbD 0 = b.getLsbD 0 := by
    rw [← shift_top a,← shift_top b,same]
  have shifted : a >>> 1 = b >>> 1 := by
    unfold shift at same
    rw [low] at same
    split at same
    · exact (BitVec.xor_left_inj polynomial).mp same
    · exact same
  apply BitVec.eq_of_getLsbD_eq
  intro i inside
  cases i with
  | zero => exact low
  | succ i =>
    have bit := congrArg (fun c => c.getLsbD i) shifted
    simpa [Nat.add_comm] using bit

theorem update_injective (byte : UInt8) : Function.Injective (update · byte) := by
  intro a b same
  exact (BitVec.xor_left_inj _).mp (shift_injective.iterate 8 same)

theorem update_byte_injective (c : BitVec 32) : Function.Injective (update c) := by
  intro a b same
  have widened := (BitVec.xor_right_inj c).mp (shift_injective.iterate 8 same)
  apply UInt8.toBitVec_inj.mp
  apply BitVec.eq_of_toNat_eq
  have values := congrArg BitVec.toNat widened
  have left := a.toNat_lt
  have right := b.toNat_lt
  simp only [BitVec.toNat_setWidth,UInt8.toNat_toBitVec] at values ⊢
  omega

theorem foldl_update_injective (bytes : List UInt8) : Function.Injective (bytes.foldl update ·) := by
  induction bytes with
  | nil => exact Function.injective_id
  | cons byte rest ih => exact ih.comp (update_injective byte)

/-- A changed byte always changes the checksum. -/
theorem crc32_byte_ne (front back : List UInt8) {a b : UInt8} (changed : a ≠ b) :
    crc32 (front ++ a :: back) ≠ crc32 (front ++ b :: back) := by
  intro same
  have remainders := BitVec.not_inj.mp (UInt32.ofBitVec.inj same)
  simp only [List.foldl_append,List.foldl_cons] at remainders
  exact changed (update_byte_injective _ (foldl_update_injective back remainders))

/-! ## Evaluation -/

/-- `shift` on numbers, with their own operations alone. -/
def shiftNat (c : Nat) : Nat := Nat.xor (Nat.div c 2) (Nat.mul 0xEDB88320 (Nat.mod c 2))

def updateNat (c : Nat) (byte : UInt8) : Nat :=
  shiftNat (shiftNat (shiftNat (shiftNat (shiftNat (shiftNat (shiftNat (shiftNat (Nat.xor c byte.toNat))))))))

def crc32Nat (bytes : List UInt8) : UInt32 := .ofNat (Nat.xor 0xFFFFFFFF (bytes.foldl updateNat 0xFFFFFFFF))

theorem shift_toNat (c : BitVec 32) : (shift c).toNat = shiftNat c.toNat := by
  have low : c.getLsbD 0 = decide (c.toNat % 2 = 1) := by
    simp [BitVec.getLsbD,Nat.testBit_zero]
  have halved : (c >>> 1).toNat = c.toNat / 2 := by
    rw [BitVec.toNat_ushiftRight,Nat.shiftRight_eq_div_pow,pow_one]
  unfold shift
  rw [low]
  show _ = (c.toNat / 2) ^^^ (0xEDB88320 * (c.toNat % 2))
  rcases Nat.mod_two_eq_zero_or_one c.toNat with even | odd
  · rw [even,if_neg (by decide),halved]
    simp
  · rw [odd,if_pos (by decide),BitVec.toNat_xor,halved]
    rfl

theorem update_toNat (c : BitVec 32) (byte : UInt8) : (update c byte).toNat = updateNat c.toNat byte := by
  have each : Function.Semiconj BitVec.toNat shift shiftNat := shift_toNat
  have taken : (c ^^^ byte.toBitVec.setWidth 32).toNat = Nat.xor c.toNat byte.toNat := by
    have small := byte.toNat_lt
    rw [BitVec.toNat_xor,BitVec.toNat_setWidth,UInt8.toNat_toBitVec,Nat.mod_eq_of_lt (by omega)]
    rfl
  unfold update
  rw [(each.iterate_right 8).eq,taken]
  rfl

/-- The checksum on numbers, which the kernel evaluates faster. -/
theorem crc32_eq_nat (bytes : List UInt8) : crc32 bytes = crc32Nat bytes := by
  have folded : ∀ c : BitVec 32, (bytes.foldl update c).toNat = bytes.foldl updateNat c.toNat := by
    induction bytes with
    | nil => exact fun _ => rfl
    | cons byte rest ih =>
      intro c
      rw [List.foldl_cons,List.foldl_cons,ih,update_toNat]
  have start : _ = bytes.foldl updateNat 0xFFFFFFFF := folded (BitVec.allOnes 32)
  have value : (~~~bytes.foldl update (BitVec.allOnes 32)).toNat = Nat.xor 0xFFFFFFFF (bytes.foldl updateNat 0xFFFFFFFF) := by
    rw [← BitVec.allOnes_xor,BitVec.toNat_xor,start]
    rfl
  unfold crc32Nat
  rw [← value]
  exact (UInt32.ofNat_toNat (x := crc32 bytes)).symm

end Crc32
