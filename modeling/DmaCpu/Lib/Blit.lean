-- SUMMARY: Copying into a memory whose addresses wrap around.
import Mathlib.Data.BitVec

/-!
# Copies

`blit` overwrites a range of a memory from a source. `Copied` is the invariant of a
transfer that delivers its bytes piece by piece: the first `k` of `n` bytes have
arrived, and nothing outside the `n` bytes has changed.
-/
namespace DmaCpu.Blit

variable {w : Nat} {β : Type}

abbrev Mem (w : Nat) (β : Type) := BitVec w → β

/-- The `len` bytes from `d` on become those of `src`. -/
def blit (m : Mem w β) (d : BitVec w) (len : Nat) (src : Nat → β) : Mem w β :=
  fun a => if (a - d).toNat < len then src (a - d).toNat else m a

/-- A loop that stores `k` bytes at a time. -/
def copyUnits (k : Nat) (m : Mem w β) (d : BitVec w) (count : Nat) (src : Nat → β) : Mem w β :=
  (List.range count).foldl
    (fun m i => blit m (d + BitVec.ofNat w (k * i)) k fun j => src (k * i + j)) m

section

variable {m m₀ : Mem w β} {d : BitVec w} {src bytes : Nat → β} {n k len i : Nat}

/-- The distance to a place behind the start. -/
theorem toNat_sub_add (d : BitVec w) (hi : i < 2 ^ w) (hk : k < 2 ^ w) :
    (d + BitVec.ofNat w i - (d + BitVec.ofNat w k)).toNat =
      if k ≤ i then i - k else 2 ^ w + i - k := by
  have hsub : d + BitVec.ofNat w i - (d + BitVec.ofNat w k) =
      BitVec.ofNat w i - BitVec.ofNat w k := by
    rw [BitVec.sub_eq_iff_eq_add, BitVec.add_comm d (BitVec.ofNat w k), ← BitVec.add_assoc,
      BitVec.sub_add_cancel, BitVec.add_comm]
  rw [hsub, BitVec.toNat_sub, BitVec.toNat_ofNat, BitVec.toNat_ofNat, Nat.mod_eq_of_lt hi,
    Nat.mod_eq_of_lt hk]
  split
  · rw [show 2 ^ w - k + i = i - k + 2 ^ w by omega, Nat.add_mod_right, Nat.mod_eq_of_lt (by omega)]
  · rw [Nat.mod_eq_of_lt (by omega)]
    omega

theorem blit_add (hk : k + len ≤ 2 ^ w) (hi : i < 2 ^ w) :
    blit m (d + BitVec.ofNat w k) len src (d + BitVec.ofNat w i) =
      if k ≤ i ∧ i < k + len then src (i - k) else m (d + BitVec.ofNat w i) := by
  rcases Nat.eq_zero_or_pos len with rfl | hlen
  · rw [blit, if_neg (Nat.not_lt_zero _), if_neg (by omega)]
  · rw [blit, toNat_sub_add d hi (by omega)]
    by_cases hle : k ≤ i
    · rw [if_pos hle]
      exact if_congr (by omega) rfl rfl
    · rw [if_neg hle, if_neg (by omega), if_neg (by omega)]

theorem blit_eq_iff (hn : n ≤ 2 ^ w) :
    blit m d n src = blit m d n bytes ↔ ∀ i < n, src i = bytes i := by
  constructor
  · intro h i hi
    have hat := congrFun h (d + BitVec.ofNat w i)
    have hsub : (d + BitVec.ofNat w i - d).toNat = i := by
      rw [BitVec.add_comm, BitVec.add_sub_cancel, BitVec.toNat_ofNat, Nat.mod_eq_of_lt (by omega)]
    rwa [blit, blit, hsub, if_pos hi, if_pos hi] at hat
  · intro h
    funext a
    rw [blit, blit]
    split
    next hlt => exact h _ hlt
    next => rfl

/-- An address before or behind the range keeps its byte. -/
theorem blit_apart {a : BitVec w} (hd : d.toNat + len ≤ 2 ^ w)
    (ha : a.toNat < d.toNat ∨ d.toNat + len ≤ a.toNat) : blit m d len src a = m a := by
  rw [blit, if_neg]
  rw [BitVec.toNat_sub]
  rcases ha with ha | ha
  · rw [Nat.mod_eq_of_lt (by omega)]
    omega
  · rw [show 2 ^ w - d.toNat + a.toNat = a.toNat - d.toNat + 2 ^ w by omega, Nat.add_mod_right,
      Nat.mod_eq_of_lt (by omega)]
    omega

/-- Every address is some way behind the start. -/
theorem eq_add_ofNat (d a : BitVec w) : a = d + BitVec.ofNat w (a - d).toNat := by
  rw [BitVec.ofNat_toNat, BitVec.setWidth_eq, BitVec.add_comm, BitVec.sub_add_cancel]

structure Copied (m₀ m : Mem w β) (d : BitVec w) (n k : Nat) (bytes : Nat → β) : Prop where
  done : ∀ i < k, m (d + BitVec.ofNat w i) = bytes i
  frame : ∀ i, n ≤ i → i < 2 ^ w → m (d + BitVec.ofNat w i) = m₀ (d + BitVec.ofNat w i)

namespace Copied

theorem start : Copied m m d n 0 bytes :=
  ⟨fun _ h => absurd h (Nat.not_lt_zero _), fun _ _ _ => rfl⟩

/-- The next piece arrives. -/
theorem next (h : Copied m₀ m d n k bytes) (hk : k + len ≤ n) (hn : n ≤ 2 ^ w)
    (hsrc : ∀ i < len, src i = bytes (k + i)) :
    Copied m₀ (blit m (d + BitVec.ofNat w k) len src) d n (k + len) bytes where
  done i hi := by
    rw [blit_add (by omega) (by omega)]
    split
    next hin =>
      rw [hsrc _ (by omega)]
      congr 1
      omega
    next => exact h.done i (by omega)
  frame i hle hi := by
    rw [blit_add (by omega) hi, if_neg (by omega)]
    exact h.frame i hle hi

/-- What is written further on will be overwritten. -/
theorem spoilt (h : Copied m₀ m d n k bytes) (hk : k + len ≤ n) (hn : n ≤ 2 ^ w)
    (src : Nat → β) : Copied m₀ (blit m (d + BitVec.ofNat w k) len src) d n k bytes where
  done i hi := by
    rw [blit_add (by omega) (by omega), if_neg (by omega)]
    exact h.done i hi
  frame i hle hi := by
    rw [blit_add (by omega) hi, if_neg (by omega)]
    exact h.frame i hle hi

theorem eq_blit (h : Copied m₀ m d n n bytes) : m = blit m₀ d n bytes := by
  funext a
  have ha := eq_add_ofNat d a
  rw [blit]
  split
  next hlt =>
    rw [← h.done _ hlt, ← ha]
  next hge =>
    have hframe := h.frame _ (Nat.le_of_not_lt hge) (a - d).isLt
    rwa [← ha] at hframe

end Copied

theorem copyUnits_eq_blit (k : Nat) (m : Mem w β) (d : BitVec w) (count : Nat) (src : Nat → β)
    (h : k * count ≤ 2 ^ w) : copyUnits k m d count src = blit m d (k * count) src := by
  have hall (c : Nat) (hc : c ≤ count) :
      Copied m (copyUnits k m d c src) d (k * count) (k * c) src := by
    induction c with
    | zero => exact .start
    | succ c ih =>
      have hle : k * (c + 1) ≤ k * count := Nat.mul_le_mul_left k hc
      rw [copyUnits, List.range_succ, List.foldl_append]
      exact (ih (Nat.le_of_succ_le hc)).next hle h fun _ _ => rfl
  exact (hall count (Nat.le_refl _)).eq_blit

end

end DmaCpu.Blit
