-- SUMMARY: The kernel's 64-bit clock in 32-bit halves: division is exact, and a reading is one moment's value.
import DmaCpu.Xv6.State
import Mathlib.Tactic.Ring

/-!
# The wall clock

The counter is read one half at a time, so its halves may belong to different moments.
It is modelled by its values at the reads, one after the other: any delay between two
reads is a step of any size between two values.
-/
namespace DmaCpu.Xv6

/-- The loop of `wall_now` from read `k` on: the pair, and the number of reads made. -/
def wallLoop (c : Nat → BitVec 64) : Nat → Nat → Word → Option (Word × Word × Nat)
  | 0, _, _ => none
  | fuel + 1, k, h =>
    let l := (c k).extractLsb' 0 32
    let h2 := (c (k + 1)).extractLsb' 32 32
    if h2 = h then some (h, l, k + 2) else wallLoop c fuel (k + 2) h2

/-- The high half has only so many values to move through. -/
def wallNow (c : Nat → BitVec 64) : Option (Word × Word × Nat) :=
  wallLoop c (2 ^ 32) 1 ((c 0).extractLsb' 32 32)

def wallSince (c : Nat → BitVec 64) (ehi elo : Word) : Option (Word × Word) :=
  (wallNow c).map fun (nh, nl, _) => (nh - ehi - (if nl < elo then 1 else 0), nl - elo)

/-- The last `n` rounds of the loop of `us_div`, for the bits below `n` of the low word: the
    remainder and the low word of the quotient. -/
def usDivLoop (l d : Word) : Nat → Word → Word → Word × Word
  | 0, rem, ql => (rem, ql)
  | n + 1, rem, ql =>
    let rem := rem + rem
    let rem := if l &&& BitVec.twoPow 32 n ≠ 0 then rem + 1 else rem
    let ql := ql + ql
    if d ≤ rem then usDivLoop l d n (rem - d) (ql + 1) else usDivLoop l d n rem ql

/-- The quotient's two words and the remainder. -/
def usDiv (hi lo d : Word) : Word × Word × Word :=
  let (rem, ql) := usDivLoop lo d 32 (hi % d) 0
  (hi / d, ql, rem)

/-! ## Division -/

theorem toNat_pair (hi lo : Word) : (hi ++ lo).toNat = 2 ^ 32 * hi.toNat + lo.toNat := by
  rw [BitVec.toNat_append, ← Nat.shiftLeft_add_eq_or_of_lt lo.isLt, Nat.shiftLeft_eq, Nat.mul_comm]

/-- The remainder with the next bit brought down. -/
theorem toNat_bring (l : Word) {rem : Word} (hrem : rem.toNat < 2 ^ 31) {n : Nat} (hn : n < 32) :
    (if l &&& BitVec.twoPow 32 n ≠ 0 then rem + rem + 1 else rem + rem).toNat =
      2 * rem.toNat + l.toNat / 2 ^ n % 2 := by
  have hbit : l &&& BitVec.twoPow 32 n ≠ 0 ↔ l.toNat / 2 ^ n % 2 = 1 := by
    have hne : BitVec.twoPow 32 n ≠ 0 := by
      rw [ne_eq, BitVec.toNat_eq, BitVec.toNat_twoPow,
        Nat.mod_eq_of_lt (Nat.pow_lt_pow_right (by decide) hn)]
      exact Nat.ne_of_gt (Nat.two_pow_pos n)
    rw [BitVec.and_twoPow, BitVec.getLsbD, Nat.testBit_eq_decide_div_mod_eq]
    by_cases h : l.toNat / 2 ^ n % 2 = 1
    · simpa only [h, decide_true, if_true, iff_true] using hne
    · simp [h]
  split
  next h =>
    rw [hbit.mp h]
    simp only [BitVec.toNat_add, BitVec.ofNat_eq_ofNat, BitVec.toNat_ofNat]
    omega
  next h =>
    have := mt hbit.mpr h
    rw [BitVec.toNat_add]
    omega

/-- What the last `n` rounds make of a remainder. -/
theorem usDivLoop_eq {l d : Word} (hd : d.toNat < 2 ^ 31) {n : Nat} (hn : n ≤ 32)
    (rem ql : Word) (hrem : rem.toNat < d.toNat) (hql : ql.toNat < 2 ^ (32 - n)) :
    (usDivLoop l d n rem ql).1.toNat = (rem.toNat * 2 ^ n + l.toNat % 2 ^ n) % d.toNat ∧
      (usDivLoop l d n rem ql).2.toNat =
        ql.toNat * 2 ^ n + (rem.toNat * 2 ^ n + l.toNat % 2 ^ n) / d.toNat := by
  induction n generalizing rem ql with
  | zero => simp [usDivLoop, Nat.mod_one, Nat.mod_eq_of_lt hrem, Nat.div_eq_of_lt hrem]
  | succ n ih =>
    have hR := toNat_bring l (Nat.lt_trans hrem hd) hn
    have hsum : rem.toNat * 2 ^ (n + 1) + l.toNat % 2 ^ (n + 1) =
        (2 * rem.toNat + l.toNat / 2 ^ n % 2) * 2 ^ n + l.toNat % 2 ^ n := by
      rw [Nat.mod_pow_succ]
      ring
    rw [usDivLoop, hsum, ← hR]
    generalize (if l &&& BitVec.twoPow 32 n ≠ 0 then rem + rem + 1 else rem + rem) = R at hR ⊢
    have hpow : 2 ^ (32 - n) = 2 * 2 ^ (32 - (n + 1)) := by
      rw [← Nat.pow_succ', ← Nat.succ_sub hn, Nat.succ_sub_succ]
    have hle32 : 2 ^ (32 - n) ≤ 2 ^ 32 := Nat.pow_le_pow_right (by decide) (Nat.sub_le _ _)
    have hqn : (ql + ql).toNat = 2 * ql.toNat ∧ (ql + ql + 1).toNat = 2 * ql.toNat + 1 := by
      simp only [BitVec.toNat_add, BitVec.ofNat_eq_ofNat, BitVec.toNat_ofNat]
      omega
    split
    next hle =>
      have hle' := BitVec.le_def.mp hle
      have hsub : (R - d).toNat = R.toNat - d.toNat := BitVec.toNat_sub_of_le hle
      obtain ⟨h₁, h₂⟩ := ih (by omega) (R - d) (ql + ql + 1) (by omega) (by omega)
      have hX : R.toNat * 2 ^ n + l.toNat % 2 ^ n =
          (R - d).toNat * 2 ^ n + l.toNat % 2 ^ n + d.toNat * 2 ^ n := by
        rw [hsub, Nat.sub_mul]
        have := Nat.mul_le_mul_right (2 ^ n) hle'
        omega
      rw [hX, Nat.add_mul_mod_self_left, Nat.add_mul_div_left _ _ (by omega), h₁, h₂, hqn.2]
      refine ⟨rfl, ?_⟩
      ring
    next hlt =>
      obtain ⟨h₁, h₂⟩ := ih (by omega) R (ql + ql)
        (BitVec.lt_def.mp (BitVec.not_le.mp hlt)) (by omega)
      rw [h₁, h₂, hqn.1]
      refine ⟨rfl, ?_⟩
      ring

theorem usDiv_exact (hi lo : Word) {d : Word} (hpos : 0 < d.toNat) (hd : d.toNat < 2 ^ 31) :
    (usDiv hi lo d).1 ++ (usDiv hi lo d).2.1 = (hi ++ lo) / d.setWidth 64 ∧
      (usDiv hi lo d).2.2.setWidth 64 = (hi ++ lo) % d.setWidth 64 := by
  obtain ⟨hrem, hql⟩ := usDivLoop_eq (l := lo) hd (Nat.le_refl 32) (hi % d) 0
    (by rw [BitVec.toNat_umod]; exact Nat.mod_lt _ hpos) (by decide)
  have hd64 : (d.setWidth 64).toNat = d.toNat := BitVec.toNat_setWidth_of_le (by decide)
  have hsum : 2 ^ 32 * hi.toNat + lo.toNat =
      (hi % d).toNat * 2 ^ 32 + lo.toNat % 2 ^ 32 + d.toNat * (hi.toNat / d.toNat * 2 ^ 32) := by
    rw [Nat.mod_eq_of_lt lo.isLt, BitVec.toNat_umod]
    nth_rewrite 1 [← Nat.div_add_mod hi.toNat d.toNat]
    ring
  constructor <;> apply BitVec.eq_of_toNat_eq
  · have hq : (usDiv hi lo d).2.1.toNat = _ := hql
    rw [toNat_pair, BitVec.toNat_udiv, toNat_pair, hd64, hsum, Nat.add_mul_div_left _ _ hpos, hq,
      show (usDiv hi lo d).1 = hi / d from rfl, BitVec.toNat_udiv,
      show BitVec.toNat (0 : Word) = 0 from rfl]
    ring
  · rw [BitVec.toNat_umod, toNat_pair, hd64, hsum, Nat.add_mul_mod_self_left, ← hrem]
    exact BitVec.toNat_setWidth_of_le (by decide)

/-! ## The reading -/

section

variable {c : Nat → BitVec 64} (hc : ∀ j k, j ≤ k → c j ≤ c k)
include hc

theorem high_le {j k : Nat} (h : j ≤ k) :
    ((c j).extractLsb' 32 32).toNat ≤ ((c k).extractLsb' 32 32).toNat := by
  have := BitVec.le_def.mp (hc j k h)
  simp only [BitVec.extractLsb'_toNat, Nat.shiftRight_eq_div_pow]
  omega

/-- Each round that fails has seen the high half grow. -/
theorem wallLoop_eq (fuel : Nat) {j k : Nat} (hj : j ≤ k)
    (hfuel : 2 ^ 32 ≤ fuel + ((c j).extractLsb' 32 32).toNat) :
    ∃ i n, i < n ∧ wallLoop c fuel k ((c j).extractLsb' 32 32) =
      some ((c i).extractLsb' 32 32, (c i).extractLsb' 0 32, n) := by
  induction fuel generalizing j k with
  | zero =>
    omega
  | succ fuel ih =>
    have hjk := high_le hc hj
    have hkk := high_le hc (Nat.le_add_right k 1)
    rw [wallLoop]
    split
    next heq =>
      have hk : (c k).extractLsb' 32 32 = (c j).extractLsb' 32 32 :=
        BitVec.eq_of_toNat_eq (Nat.le_antisymm (heq ▸ hkk) hjk)
      exact ⟨k, k + 2, by omega, by rw [hk]⟩
    next hne =>
      refine ih (Nat.le_succ (k + 1)) ?_
      have hlt := Nat.lt_of_le_of_ne (Nat.le_trans hjk hkk)
        fun h => hne (BitVec.eq_of_toNat_eq h.symm)
      omega

end

theorem pair_sub (nh nl ehi elo : Word) :
    (nh - ehi - (if nl < elo then 1 else 0)) ++ (nl - elo) = (nh ++ nl) - (ehi ++ elo) := by
  apply BitVec.eq_of_toNat_eq
  split
  next h =>
    have := BitVec.lt_def.mp h
    simp only [BitVec.toNat_sub, toNat_pair, BitVec.ofNat_eq_ofNat, BitVec.toNat_ofNat]
    omega
  next h =>
    have := BitVec.le_def.mp (BitVec.not_lt.mp h)
    simp only [BitVec.toNat_sub, toNat_pair, BitVec.ofNat_eq_ofNat, BitVec.toNat_ofNat]
    omega

/-- `us_div` divides exactly, and `wall_now` and `wall_since` go by the value that the counter
    had at one of their reads. -/
theorem clock_exact :
    (∀ hi lo d : Word, 0 < d.toNat → d.toNat < 2 ^ 31 →
      (usDiv hi lo d).1 ++ (usDiv hi lo d).2.1 = (hi ++ lo) / d.setWidth 64 ∧
      (usDiv hi lo d).2.2.setWidth 64 = (hi ++ lo) % d.setWidth 64) ∧
    ∀ c : Nat → BitVec 64, (∀ j k, j ≤ k → c j ≤ c k) → ∃ i n nh nl, i < n ∧
      wallNow c = some (nh, nl, n) ∧ nh ++ nl = c i ∧
      ∀ ehi elo, ∃ hi lo, wallSince c ehi elo = some (hi, lo) ∧ hi ++ lo = c i - (ehi ++ elo) := by
  refine ⟨fun hi lo d hpos hd => usDiv_exact hi lo hpos hd, fun c hc => ?_⟩
  obtain ⟨i, n, hi, hnow⟩ := wallLoop_eq hc (2 ^ 32) (j := 0) (Nat.zero_le 1) (by omega)
  have hpair : (c i).extractLsb' 32 32 ++ (c i).extractLsb' 0 32 = c i := by
    apply BitVec.eq_of_toNat_eq
    rw [toNat_pair, BitVec.extractLsb'_toNat, BitVec.extractLsb'_toNat]
    omega
  refine ⟨i, n, _, _, hi, hnow, hpair, fun ehi elo => ⟨_, _, congrArg (Option.map _) hnow, ?_⟩⟩
  rw [pair_sub, hpair]

/-- A day in seconds, and a counter that stands still. -/
theorem clock_exact_day :
    (usDiv 0x14 0x1DD76000 1000000).1 ++ (usDiv 0x14 0x1DD76000 1000000).2.1 = (86400 : BitVec 64) ∧
      ∃ i n nh nl, i < n ∧ wallNow (fun _ => 5) = some (nh, nl, n) ∧ nh ++ nl = (5 : BitVec 64) := by
  refine ⟨(clock_exact.1 0x14 0x1DD76000 1000000 (by decide) (by decide)).1.trans (by decide), ?_⟩
  obtain ⟨i, n, nh, nl, hi, hnow, hpair, _⟩ := clock_exact.2 (fun _ => 5) fun _ _ _ => BitVec.le_refl _
  exact ⟨i, n, nh, nl, hi, hnow, hpair⟩

end DmaCpu.Xv6
