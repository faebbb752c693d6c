-- SUMMARY: The exec arena's first-fit allocator and the blocks that slots record.
import DmaCpu.Xv6.State

/-!
# The arena

The free list is a linked list through the headers of the free blocks, in
address order. A walk that has followed more links than there are 256-byte
units in the address space is on a cycle, so the kernel never comes back.
-/
namespace DmaCpu.Xv6

/-- The number of 256-byte units in the address space. -/
abbrev units : Nat := 2 ^ 24

/-- The result of following the free list. -/
inductive Walk (α : Type) where
  | hang
  | done (a : α)

namespace Kernel

/-! ## Header words -/

def setHdr (k : Kernel) (h : Word) (x : Khdr) : Kernel :=
  { k with khdr := Function.update k.khdr h x }

/-- `*pp = v`, where `pp` is `&kfreelist` or `&h->next`. -/
def setLink (k : Kernel) (pp : Option Word) (v : Word) : Kernel :=
  match pp with
  | none => { k with kfreelist := v }
  | some h => k.setHdr h { k.khdr h with next := v }

/-- The list walk does not end. -/
def hang (k : Kernel) : Kernel := { k with stuck := true }

/-! ## kalloc, kalloc_top, kfree -/

/-- The first call makes the whole arena one free block. -/
def kheapStart (k : Kernel) : Kernel :=
  if k.kheapInit then k
  else
    let k := { k with kheapInit := true, kfreelist := k.arena }
    k.setHdr k.arena { size := k.arenaEnd - k.arena, next := 0 }

/-- Bytes asked for, in whole units, plus the unit that the header burns. -/
def blockSize (n : Word) : Word := ((n + 0xFF) &&& ~~~0xFF) + 0x100

/-- The first free block of at least `n` bytes, with the link that leads to it. -/
def firstFit (hdr : Word → Khdr) (n : Word) :
    Nat → Option Word → Word → Walk (Option (Option Word × Word))
  | 0, _, _ => .hang
  | fuel + 1, pp, h =>
    if h = 0 then .done none
    else if n ≤ (hdr h).size then .done (some (pp, h))
    else firstFit hdr n fuel (some h) (hdr h).next

/-- The last one. -/
def lastFit (hdr : Word → Khdr) (n : Word) :
    Nat → Option Word → Word → Option (Option Word × Word) → Walk (Option (Option Word × Word))
  | 0, _, _, _ => .hang
  | fuel + 1, pp, h, cand =>
    if h = 0 then .done cand
    else lastFit hdr n fuel (some h) (hdr h).next
      (if n ≤ (hdr h).size then some (pp, h) else cand)

def kalloc (k : Kernel) (n : Word) : Kernel × Word :=
  let k := k.kheapStart
  let n := blockSize n
  match firstFit k.khdr n units none k.kfreelist with
  | .hang => (k.hang, 0)
  | .done none => (k, 0)
  | .done (some (pp, h)) =>
    let x := k.khdr h
    if 0x200 ≤ x.size - n then
      let k := k.setHdr (h + n) { size := x.size - n, next := x.next }
      let k := k.setHdr h { k.khdr h with size := n }
      (k.setLink pp (h + n), h + 0x100)
    else (k.setLink pp x.next, h + 0x100)

def kallocTop (k : Kernel) (n : Word) : Kernel × Word :=
  let k := k.kheapStart
  let n := blockSize n
  match lastFit k.khdr n units none k.kfreelist none with
  | .hang => (k.hang, 0)
  | .done none => (k, 0)
  | .done (some (pp, h)) =>
    let x := k.khdr h
    if 0x200 ≤ x.size - n then
      let k := k.setHdr h { x with size := x.size - n }
      let piece := h + (x.size - n)
      (k.setHdr piece { k.khdr piece with size := n }, piece + 0x100)
    else (k.setLink pp x.next, h + 0x100)

/-- `while (cur && cur < h)`: the free blocks around address `h`. -/
def findSpot (hdr : Word → Khdr) (h : Word) :
    Nat → Option Word → Word → Walk (Option Word × Word)
  | 0, _, _ => .hang
  | fuel + 1, prev, cur =>
    if cur ≠ 0 ∧ cur < h then findSpot hdr h fuel (some cur) (hdr cur).next
    else .done (prev, cur)

def kfree (k : Kernel) (a : Word) : Kernel :=
  if a = 0 then k
  else
    let h := a - 0x100
    match findSpot k.khdr h units none k.kfreelist with
    | .hang => k.hang
    | .done (prev, cur) =>
      let k := k.setHdr h { k.khdr h with next := cur }
      let k := k.setLink prev h
      let k :=
        if cur ≠ 0 ∧ h + (k.khdr h).size = cur then
          k.setHdr h { size := (k.khdr h).size + (k.khdr cur).size, next := (k.khdr cur).next }
        else k
      match prev with
      | none => k
      | some prev =>
        if prev + (k.khdr prev).size = h then
          k.setHdr prev { size := (k.khdr prev).size + (k.khdr h).size, next := (k.khdr h).next }
        else k

/-! ## Blocks of a slot -/

def setExecmem (k : Kernel) (i : Slot) (x : Part) (a : Word) : Kernel :=
  { k with execmem := Function.update k.execmem i (Function.update (k.execmem i) x a) }

def setHeapmem (k : Kernel) (i : Slot) (a : Word) : Kernel :=
  { k with heapmem := Function.update k.heapmem i a }

/-- Release the image and the heap that slot `i` owns. -/
def kfreeExec (k : Kernel) (i : Slot) : Kernel :=
  let k := [Part.text, .data, .args].foldl
    (fun k x => (k.kfree (k.execmem i x)).setExecmem i x 0) k
  let k := (k.kfree (k.heapmem i)).setHeapmem i 0
  k.setProc i { k.proc i with
    heapbase := 0, heapmax := 0, brk := 0, sigctx := 0, sigpend := .idle }

end Kernel

end DmaCpu.Xv6
