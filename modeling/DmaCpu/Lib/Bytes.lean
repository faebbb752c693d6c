-- SUMMARY: Byte memories with little-endian accesses of one, two and four bytes.
import Mathlib.Data.BitVec

/-!
# Byte memories

A memory is its size and the byte at every offset. An access has a width; a load
assembles the bytes least significant first and zero-extends them to a word, a
store takes as many low bytes of the word as the width has.
-/
namespace DmaCpu

abbrev Word := BitVec 32

instance : LawfulBEq Word := inferInstance

inductive Width where
  | byte
  | half
  | word
deriving DecidableEq, Repr

/-- The number of bytes of an access. -/
def Width.bytes : Width → Nat
  | .byte => 1
  | .half => 2
  | .word => 4

theorem Width.bytes_pos (w : Width) : 0 < w.bytes := by
  cases w <;> decide

structure Ram where
  size : Nat
  byte : Nat → BitVec 8

namespace Ram

def load (r : Ram) (off : Nat) : Width → Word
  | .byte => (r.byte off).setWidth 32
  | .half => (r.byte (off + 1) ++ r.byte off).setWidth 32
  | .word => r.byte (off + 3) ++ r.byte (off + 2) ++ r.byte (off + 1) ++ r.byte off

def store (r : Ram) (off : Nat) (v : Word) (w : Width) : Ram :=
  { r with byte := fun i =>
      if off ≤ i ∧ i < off + w.bytes then v.extractLsb' (8 * (i - off)) 8 else r.byte i }

theorem ext_byte {r s : Ram} (hsize : r.size = s.size) (hbyte : ∀ i, r.byte i = s.byte i) :
    r = s := by
  obtain ⟨size, byte⟩ := r
  obtain rfl : byte = s.byte := funext hbyte
  cases hsize
  rfl

section

variable (r : Ram) (off : Nat) (v : Word)

@[simp] theorem size_store (w : Width) :
    (r.store off v w).size = r.size := rfl

theorem byte_store (w : Width) (i : Nat) :
    (r.store off v w).byte i =
      if off ≤ i ∧ i < off + w.bytes then v.extractLsb' (8 * (i - off)) 8 else r.byte i := rfl

theorem byte_store_word (i : Nat) :
    (r.store off v .word).byte i =
      if off ≤ i ∧ i < off + 4 then v.extractLsb' (8 * (i - off)) 8 else r.byte i := rfl

end

theorem byte_store_apart (r : Ram) {off : Nat} (v : Word) {w : Width} {i : Nat}
    (h : i < off ∨ off + w.bytes ≤ i) : (r.store off v w).byte i = r.byte i := by
  rw [byte_store, if_neg (by omega)]

/-- A load sees only the bytes of its range. -/
theorem load_congr {r s : Ram} {off : Nat} {w : Width}
    (h : ∀ i, off ≤ i → i < off + w.bytes → r.byte i = s.byte i) :
    r.load off w = s.load off w := by
  cases w <;> simp only [Width.bytes] at h <;> unfold load
  case byte => rw [h off (by omega) (by omega)]
  case half => rw [h off (by omega) (by omega), h (off + 1) (by omega) (by omega)]
  case word =>
    rw [h off (by omega) (by omega), h (off + 1) (by omega) (by omega),
      h (off + 2) (by omega) (by omega), h (off + 3) (by omega) (by omega)]

theorem load_store_apart (r : Ram) {off off' : Nat} (v : Word) {w w' : Width}
    (h : off' + w'.bytes ≤ off ∨ off + w.bytes ≤ off') :
    (r.store off v w).load off' w' = r.load off' w' :=
  load_congr fun _ hlo hhi => byte_store_apart r v (by omega)

/-- The four bytes of a word, put together again. -/
theorem append_bytes (v : Word) :
    v.extractLsb' 24 8 ++ v.extractLsb' 16 8 ++ v.extractLsb' 8 8 ++ v.extractLsb' 0 8 = v := by
  apply BitVec.eq_of_getLsbD_eq
  grind

/-- A byte of four bytes put together. -/
theorem extract_append (d c b a : BitVec 8) {r : Nat} (hr : r < 4) :
    (d ++ c ++ b ++ a : Word).extractLsb' (8 * r) 8 = [a, b, c, d].getD r 0 := by
  apply BitVec.eq_of_getLsbD_eq
  intro i hi
  rcases (by omega : r = 0 ∨ r = 1 ∨ r = 2 ∨ r = 3) with rfl | rfl | rfl | rfl <;>
    simp only [BitVec.getLsbD_extractLsb', BitVec.getLsbD_append] <;> simp [hi] <;> grind

theorem load_store_word (r : Ram) (off : Nat) (v : Word) :
    (r.store off v .word).load off .word = v := by
  simp only [load, byte_store, Width.bytes]
  simp only [show off ≤ off + 3 ∧ off + 3 < off + 4 from by omega,
    show off ≤ off + 2 ∧ off + 2 < off + 4 from by omega,
    show off ≤ off + 1 ∧ off + 1 < off + 4 from by omega,
    show off ≤ off ∧ off < off + 4 from by omega, and_self, if_true]
  rw [show off + 3 - off = 3 from by omega, show off + 2 - off = 2 from by omega,
    show off + 1 - off = 1 from by omega, Nat.sub_self]
  exact append_bytes v

end Ram

end DmaCpu
