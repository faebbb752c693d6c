-- SUMMARY: Orders on words read off the sign bit of a word computed from them.
import DmaCpu.Lib.Bytes

/-!
# Signs

A machine that can test one bit decides the orders on words by computing a word
whose sign bit is the answer.
-/
namespace DmaCpu

open BitVec

theorem msb_iff (a : Word) : a.msb = decide (2 ^ 31 ≤ a.toNat) := msb_eq_decide a

theorem msb_sub (a b : Word) :
    (a - b).msb = decide (2 ^ 31 ≤ (2 ^ 32 - b.toNat + a.toNat) % 2 ^ 32) := by
  rw [msb_iff, toNat_sub]

theorem beq_zero_of_toNat (a : Word) : (a == 0) = decide (a.toNat = 0) := by
  rw [Bool.eq_iff_iff, beq_iff_eq, decide_eq_true_eq]
  exact ⟨fun h => h ▸ rfl, fun h => eq_of_toNat_eq h⟩

/-- A word or its negation is negative unless it is zero. -/
theorem msb_neg_or (a : Word) : ((0 - a) ||| a).msb = !(a == 0) := by
  have hneg : (0 : Word) - a = -a := BitVec.zero_sub a
  rw [hneg, msb_or, msb_iff, msb_iff a, toNat_neg, beq_zero_of_toNat]
  by_cases h : a.toNat = 0
  · simp [h]
  · simp only [h, decide_false, Bool.not_false, Bool.or_eq_true, decide_eq_true_eq]
    omega

/-- Equality: the difference or its negation is negative unless it is zero. -/
theorem msb_sub_or_neg (a b : Word) : ((a - b) ||| (0 - (a - b))).msb = !(a == b) := by
  have hbeq : (a - b == 0) = (a == b) := by
    rw [Bool.eq_iff_iff, beq_iff_eq, beq_iff_eq]
    bv_omega
  rw [BitVec.or_comm, msb_neg_or, hbeq]

/-- Signed order, for all operands. -/
theorem msb_slt (a b : Word) :
    ((a &&& ~~~b) ||| ((a - b) &&& ~~~(a ^^^ b))).msb = a.slt b := by
  rw [slt_eq_ult, msb_or, msb_and, msb_not, msb_and,
    msb_not, msb_xor, msb_sub, ult_eq_decide, msb_iff a, msb_iff b]
  by_cases ha : 2 ^ 31 ≤ a.toNat <;> by_cases hb : 2 ^ 31 ≤ b.toNat <;>
    simp only [ha, hb, decide_true, decide_false] <;> simp <;> omega

/-- Unsigned order, for all operands: the borrow of the difference. -/
theorem msb_ult (a b : Word) :
    ((b &&& ~~~a) ||| ((a - b) &&& ~~~(a &&& ~~~b))).msb = a.ult b := by
  rw [msb_or, msb_and, msb_not, msb_and, msb_not,
    msb_and, msb_not, msb_sub, ult_eq_decide, msb_iff a, msb_iff b]
  by_cases ha : 2 ^ 31 ≤ a.toNat <;> by_cases hb : 2 ^ 31 ≤ b.toNat <;>
    simp only [ha, hb, decide_true, decide_false] <;> simp <;> omega

/-- A nonnegative word is zero if one less is negative. -/
theorem msb_pred {a : Word} (h : a.msb = false) : (a + 0xFFFFFFFF).msb = (a == 0) := by
  rw [msb_iff, decide_eq_false_iff_not] at h
  rw [msb_iff, toNat_add, beq_zero_of_toNat, decide_eq_decide,
    show (0xFFFFFFFF : Word).toNat = 2 ^ 32 - 1 from rfl]
  omega

/-- Both orders, for nonnegative operands: the difference cannot wrap. -/
theorem msb_sub_of_nonneg {a b : Word} (ha : a.msb = false) (hb : b.msb = false) :
    (a - b).msb = a.ult b := by
  rw [msb_iff, decide_eq_false_iff_not] at ha hb
  rw [msb_sub, ult_eq_decide, decide_eq_decide]
  omega

end DmaCpu
