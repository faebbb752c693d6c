-- SUMMARY: Integers of at most 32 bits kept in words.
import DmaCpu.Lib.Bytes

/-!
# Narrow integers

A word holds a narrow integer as its zero extension. Masks cut a word down to a
width, and an exclusive or with a subtraction extends the sign.
-/
namespace DmaCpu

theorem toNat_one_shl {n : Nat} (hn : n < 32) : ((1 : Word) <<< n).toNat = 2 ^ n := by
  have hlt : 2 ^ n < 2 ^ 32 := Nat.pow_lt_pow_right (by omega) hn
  rw [BitVec.toNat_shiftLeft, Nat.shiftLeft_eq]
  exact (Nat.mod_eq_of_lt (by simpa using hlt)).trans (Nat.one_mul _)

theorem toNat_ones {n : Nat} (hn : n < 32) : ((1 : Word) <<< n - 1).toNat = 2 ^ n - 1 := by
  have hpos : 0 < 2 ^ n := Nat.two_pow_pos n
  have hlt : 2 ^ n < 2 ^ 32 := Nat.pow_lt_pow_right (by omega) hn
  rw [BitVec.toNat_sub, toNat_one_shl hn]
  change (2 ^ 32 - 1 + 2 ^ n) % 2 ^ 32 = 2 ^ n - 1
  omega

/-- A mask leaves a narrow integer. -/
theorem and_ones {w : Nat} (hw : w < 32) (x : Word) :
    x &&& (1 : Word) <<< w - 1 = (x.setWidth w).setWidth 32 := by
  apply BitVec.eq_of_toNat_eq
  rw [BitVec.toNat_and, toNat_ones hw, Nat.and_two_pow_sub_one_eq_mod,
    BitVec.toNat_setWidth_of_le (by omega), BitVec.toNat_setWidth]

/-- Flipping the top bit of a number is adding or subtracting it. -/
theorem xor_two_pow {a n : Nat} (h : a < 2 ^ (n + 1)) :
    a ^^^ 2 ^ n = if a < 2 ^ n then a + 2 ^ n else a - 2 ^ n := by
  have hsplit : a ^^^ 2 ^ n = 2 ^ n * (a / 2 ^ n ^^^ 1) + a % 2 ^ n := by
    rw [← Nat.div_add_mod (a ^^^ 2 ^ n) (2 ^ n), Nat.xor_div_two_pow, Nat.xor_mod_two_pow,
      Nat.div_self (Nat.two_pow_pos n), Nat.mod_self, Nat.xor_zero]
  rw [hsplit]
  split
  case isTrue hlt => simp [Nat.div_eq_of_lt hlt, Nat.mod_eq_of_lt hlt, Nat.add_comm]
  case isFalse hge =>
    have hdiv : a / 2 ^ n = 1 := Nat.div_eq_of_lt_le (by omega) (by omega)
    rw [hdiv, Nat.mod_eq_sub_mod (by omega), Nat.mod_eq_of_lt (by omega)]
    simp

/-- Sign extension by an exclusive or and a subtraction. -/
theorem xor_sub_eq_signExtend {w : Nat} (hw : 0 < w) (hw' : w ≤ 32) (x : BitVec w) :
    (x.setWidth 32 ^^^ (1 : Word) <<< (w - 1)) - (1 : Word) <<< (w - 1) = x.signExtend 32 := by
  obtain ⟨n, rfl⟩ : ∃ n, w = n + 1 := ⟨w - 1, by omega⟩
  have hx : x.toNat < 2 ^ (n + 1) := x.isLt
  have hn : 2 ^ n ≤ 2 ^ 31 := Nat.pow_le_pow_right (by omega) (by omega)
  have hone : ((1 : Word) <<< n).toNat = 2 ^ n := toNat_one_shl (by omega)
  apply BitVec.eq_of_toNat_eq
  rw [Nat.add_sub_cancel, BitVec.toNat_sub, BitVec.toNat_xor, BitVec.toNat_signExtend, hone,
    BitVec.toNat_setWidth_of_le hw', xor_two_pow hx, BitVec.msb_eq_decide]
  by_cases hlt : x.toNat < 2 ^ n
  · rw [if_pos hlt, if_neg (by simpa using hlt)]
    omega
  · rw [if_neg hlt, if_pos (by simpa using hlt)]
    omega

end DmaCpu
