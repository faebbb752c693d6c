-- SUMMARY: Circular buffers addressed by free-running counters of fixed width.
import Mathlib.Algebra.Ring.Nat
import Mathlib.Data.List.Basic
import Mathlib.Data.Int.ModEq

/-!
# Rings with free-running counters

A ring of `N` cells with a read and a write counter that are never reduced
modulo `N`: a counter is a `w`-bit word that wraps at `2 ^ w`, and the cell it
names is its value modulo `N`. The queue between the two counters is a list,
and the two operations on the ring are the two operations on that list, as long
as `N` divides `2 ^ w` (so that the cell index survives the wrap of a counter).
-/
namespace DmaCpu.Ring

variable {α : Type*} {w N : Nat} [NeZero N]

/-- The cell a counter names. -/
def cell (c : BitVec w) : Fin N := Fin.ofNat N c.toNat

/-- The number of queued elements. -/
def count (r e : BitVec w) : Nat := (e - r).toNat

/-- The queue, oldest element first. -/
def contents (data : Fin N → α) (r e : BitVec w) : List α :=
  (List.range (count r e)).map fun i => data (cell (r + BitVec.ofNat w i))

@[simp] theorem length_contents (data : Fin N → α) (r e : BitVec w) :
    (contents data r e).length = count r e := by
  simp [contents]

variable {e r : BitVec w}

theorem count_eq_zero : count r e = 0 ↔ r = e := by
  unfold count
  constructor
  · intro h
    have hz : e - r = 0#w := BitVec.eq_of_toNat_eq (by simpa using h)
    exact ((BitVec.sub_eq_iff_eq_add.mp hz).trans (BitVec.zero_add r)).symm
  · rintro rfl
    simp

@[simp] theorem count_self : count r r = 0 := count_eq_zero.mpr rfl

@[simp] theorem contents_self (data : Fin N → α) : contents data r r = [] := by
  simp [contents]

variable {data : Fin N → α}

theorem contents_eq_nil : contents data r e = [] ↔ r = e := by
  rw [← List.length_eq_zero_iff, length_contents, count_eq_zero]

theorem count_succ (h : count r e + 1 < 2 ^ w) : count r (e + 1#w) = count r e + 1 := by
  unfold count at *
  have hadd : e + 1#w - r = (e - r) + 1#w := by
    rw [BitVec.sub_eq_add_neg, BitVec.sub_eq_add_neg, BitVec.add_assoc, BitVec.add_comm 1#w,
      ← BitVec.add_assoc]
  have hw : 1 < 2 ^ w := by omega
  rw [hadd, BitVec.toNat_add, BitVec.toNat_ofNat, Nat.mod_eq_of_lt hw, Nat.mod_eq_of_lt h]

theorem count_pred (h : r ≠ e) : count (r + 1#w) e + 1 = count r e := by
  have hpos : 0 < count r e := Nat.pos_of_ne_zero fun h0 => h (count_eq_zero.mp h0)
  have hsub : e - (r + 1#w) = (e - r) - 1#w := by
    rw [BitVec.sub_eq_add_neg, BitVec.sub_eq_add_neg, BitVec.sub_eq_add_neg, BitVec.neg_add,
      BitVec.sub_eq_add_neg, BitVec.add_assoc]
  unfold count at *
  have hw : 1 < 2 ^ w := by omega
  rw [hsub, BitVec.toNat_sub, BitVec.toNat_ofNat, Nat.mod_eq_of_lt hw]
  have hmod : (2 ^ w - 1 + (e - r).toNat) % 2 ^ w = (e - r).toNat - 1 := by
    rw [show 2 ^ w - 1 + (e - r).toNat = ((e - r).toNat - 1) + 2 ^ w by omega, Nat.add_mod_right,
      Nat.mod_eq_of_lt (by omega)]
  omega

/-- A cell a known distance past a counter, with the wrap of the counter gone. -/
theorem cell_add (hN : N ∣ 2 ^ w) (r : BitVec w) (i : Nat) :
    ((cell (r + BitVec.ofNat w i) : Fin N) : Nat) = (r.toNat + i) % N := by
  simp only [cell, Fin.ofNat, BitVec.toNat_add, BitVec.toNat_ofNat]
  rw [Nat.mod_mod_of_dvd _ hN, Nat.add_mod, Nat.mod_mod_of_dvd _ hN, ← Nat.add_mod]

theorem eq_add_count (r e : BitVec w) : e = r + BitVec.ofNat w (count r e) := by
  unfold count
  rw [BitVec.ofNat_toNat, BitVec.setWidth_eq, BitVec.add_comm, BitVec.sub_add_cancel]

/-- The next cell to write is none of the queued ones while the ring has room. -/
theorem cell_ne (hN : N ∣ 2 ^ w) {i : Nat} (hi : i < count r e)
    (hroom : count r e < N) : (cell (r + BitVec.ofNat w i) : Fin N) ≠ cell e := by
  intro heq
  have hval := congrArg Fin.val heq
  rw [eq_add_count r e, cell_add hN, cell_add hN] at hval
  have hdiff : N ∣ r.toNat + count r e - (r.toNat + i) :=
    (Nat.modEq_iff_dvd' (by omega)).mp hval
  have hle := Nat.le_of_dvd (by omega) hdiff
  omega

/-- Writing the next cell appends to the queue. -/
theorem contents_push [DecidableEq (Fin N)] (hN : N ∣ 2 ^ w) (hroom : count r e < N)
    (hw : N < 2 ^ w) (b : α) :
    contents (Function.update data (cell e) b) r (e + 1#w) = contents data r e ++ [b] := by
  unfold contents
  rw [count_succ (by omega), List.range_succ, List.map_append]
  congr 1
  · apply List.map_congr_left
    intro i hi
    exact Function.update_of_ne (cell_ne hN (List.mem_range.mp hi) hroom) b data
  · rw [List.map_singleton, ← eq_add_count, Function.update_self]

/-- Reading the oldest cell takes the head off the queue. -/
theorem contents_pop (h : r ≠ e) :
    contents data r e = data (cell r) :: contents data (r + 1#w) e := by
  unfold contents
  rw [← count_pred h, List.range_succ_eq_map, List.map_cons, List.map_map]
  congr 1
  · simp
  · apply List.map_congr_left
    intro i _
    have hidx : r + BitVec.ofNat w (i + 1) = r + 1#w + BitVec.ofNat w i := by
      rw [BitVec.add_assoc, Nat.add_comm i 1, BitVec.ofNat_add]
    simp [hidx]

end DmaCpu.Ring
