-- SUMMARY: The host's loader, `load.go`, over the emulated machine with its record of loaded ranges.
import DmaCpu.Dmx.Image
import DmaCpu.Emu.Machine

/-!
# The host's loader

`Load` relocates into copies of the segments, hands each copy to the machine's
`LoadBytes`, and applies the init writes. A run-time panic (an index or a slice
out of range) is an outcome of its own. `sort.Slice` does not say how it orders
extents with one start, so the sorting function is a parameter.
-/
namespace DmaCpu.Dmx

open Emu

inductive LoadError where
  | unaligned (i : Nat) (addr : Word)
  | overlap (i j : Nat) (addr : Word)
  | outside (addr : Word) (n : Nat)
  | loaded (lo hi : Word) (range : Word × Word)
  | initWrite (i : Nat) (fault : Fault)
deriving DecidableEq, Repr

/-- How a load stops short. -/
inductive Stop where
  | error (e : LoadError)
  | panic
deriving DecidableEq, Repr

/-- The machine, with the ranges `LoadBytes` remembers. -/
structure Host (δ : Type) where
  m : Machine δ
  loaded : List (Word × Word)

/-- A load address per segment index, where given. -/
abbrev Placement := Nat → Option Word

/-! ## Placement -/

/-- Where a segment goes: the placement, else the link address. -/
def Placement.addr (pl : Placement) (i : Nat) (s : Segment) : Word := (pl i).getD s.linkAddr

/-- `place` and `delta`, by segment. -/
def placeAll (pl : Placement) : Nat → List Segment → Except Stop (List (Word × Word))
  | _, [] => .ok []
  | i, s :: ss =>
    let place := pl.addr i s
    if place % 4 ≠ 0 then .error (.error (.unaligned i place))
    -- wraps; addition rebase is exact
    else (placeAll pl (i + 1) ss).map fun rest => (place, place - s.linkAddr) :: rest

structure Extent where
  idx : Nat
  start : Word
  stop : Word
deriving DecidableEq, Repr

/-- The extents of the segments that are not empty. -/
def extents : Nat → List Segment → List Word → List Extent
  | i, s :: ss, p :: ps =>
    if s.data.length = 0 then extents (i + 1) ss ps
    else ⟨i, p, p + BitVec.ofNat 32 s.data.length⟩ :: extents (i + 1) ss ps
  | _, _, _ => []

/-- Neighbours of a sorted list do not overlap. -/
def apart : List Extent → Except Stop Unit
  | a :: b :: es =>
    if b.start < a.stop then .error (.error (.overlap a.idx b.idx b.start)) else apart (b :: es)
  | _ => .ok ()

def checkOverlap (sort : List Extent → List Extent) (segs : List Segment) (place : List Word) :
    Except Stop Unit :=
  apart (sort (extents 0 segs place))

/-! ## Relocation -/

/-- `PutUint32` at an offset. -/
def put32 (b : List Byte) (off : Nat) (v : Word) : List Byte :=
  b.mapIdx fun k x => if off ≤ k ∧ k < off + 4 then v.extractLsb' (8 * (k - off)) 8 else x

/-- One relocation. The slice `[off : off+4]` has its end computed in 32 bits. -/
def relocate (delta : List Word) (bufs : List (List Byte)) (r : Reloc) :
    Except Stop (List (List Byte)) :=
  match bufs[r.seg.toNat]?, delta[r.ref.toNat]? with
  | some b, some d =>
    if r.off ≤ r.off + 4 ∧ (r.off + 4).toNat ≤ b.length then
      .ok (bufs.set r.seg.toNat (put32 b r.off.toNat (le32 b r.off.toNat + d)))
    else .error .panic
  | _, _ => .error .panic

def relocateAll (delta : List Word) : List Reloc → List (List Byte) → Except Stop (List (List Byte))
  | [], bufs => .ok bufs
  | r :: rs, bufs => (relocate delta bufs r).bind (relocateAll delta rs)

/-! ## Memory -/

/-- `copy` into a memory from an offset on, as far as the memory goes. -/
def blit (r : Ram) (off : Nat) (data : List Byte) : Ram :=
  { r with byte := fun i =>
      if off ≤ i ∧ i < off + data.length ∧ i < r.size then data.getD (i - off) 0 else r.byte i }

def blitFlash (mem : Mem) (off : Nat) (data : List Byte) : Mem :=
  { mem with flash := blit mem.flash off data }

def blitSram (mem : Mem) (off : Nat) (data : List Byte) : Mem :=
  { mem with sram := blit mem.sram off data }

/-- `inSRAM` for a span of `n` bytes. -/
def spanInSRAM (mem : Mem) (addr n : Word) : Prop :=
  sramBase ≤ addr.toNat ∧
    (addr - BitVec.ofNat 32 sramBase + n).toNat ≤ mem.sram.size ∧
    addr - BitVec.ofNat 32 sramBase ≤ addr - BitVec.ofNat 32 sramBase + n

instance (mem : Mem) (addr n : Word) : Decidable (spanInSRAM mem addr n) :=
  inferInstanceAs (Decidable (_ ∧ _ ∧ _))

/-- The flash test of `LoadBytes`. -/
def spanInFlash (mem : Mem) (addr n : Word) : Prop :=
  mem.flash.size ≠ 0 ∧ xipBase ≤ addr.toNat ∧ (addr + n).toNat ≤ xipBase + mem.flash.size

instance (mem : Mem) (addr n : Word) : Decidable (spanInFlash mem addr n) :=
  inferInstanceAs (Decidable (_ ∧ _ ∧ _))

/-- Two ranges overlap, as `LoadBytes` compares them. -/
def clash (a b : Word × Word) : Prop := a.1 < b.2 ∧ b.1 < a.2

instance (a b : Word × Word) : Decidable (clash a b) := inferInstanceAs (Decidable (_ ∧ _))

variable {δ : Type}

/-- `LoadBytes`. -/
def loadBytes (h : Host δ) (addr : Word) (data : List Byte) : Except Stop (Host δ) :=
  let n := BitVec.ofNat 32 data.length
  let mem := h.m.mem
  if ¬spanInSRAM mem addr n ∧ ¬spanInFlash mem addr n then
    .error (.error (.outside addr data.length))
  else
    match h.loaded.find? fun r => clash (addr, addr + n) r with
    | some r => .error (.error (.loaded addr (addr + n) r))
    | none =>
      let loaded := h.loaded ++ [(addr, addr + n)]
      if spanInFlash mem addr n then
        -- the slice `m.Flash[addr-XIPBase:]`
        if mem.flash.size < addr.toNat - xipBase then .error .panic
        else .ok ⟨{ h.m with mem := blitFlash mem (addr.toNat - xipBase) data }, loaded⟩
      else .ok ⟨{ h.m with mem := blitSram mem (addr.toNat - sramBase) data }, loaded⟩

def loadAll : List (Word × List Byte) → Host δ → Except Stop (Host δ)
  | [], h => .ok h
  | (addr, data) :: rest, h => (loadBytes h addr data).bind (loadAll rest)

variable (B : Board δ)

def initWrites (delta : List Word) : Nat → List Write → Machine δ → Except Stop (Machine δ)
  | _, [], m => .ok m
  | i, w :: ws, m =>
    match if w.ref ≠ refAbs then (delta[w.ref.toNat]?).map (w.value + ·) else some w.value with
    | none => .error .panic
    | some v =>
      match m.write B w.addr v .word with
      | .error fault => .error (.error (.initWrite i fault))
      | .ok m => initWrites delta (i + 1) ws m

namespace Image

variable (sort : List Extent → List Extent) (im : Image) (pl : Placement) (h : Host δ)

/-- `Load` up to the init writes: the host then, with `place` and `delta`. -/
def loadSegments : Except Stop (Host δ × List (Word × Word)) := do
  let places ← placeAll pl 0 im.segments
  checkOverlap sort im.segments (places.map Prod.fst)
  let bufs ← relocateAll (places.map Prod.snd) im.relocs (im.segments.map Segment.data)
  let h ← loadAll ((places.map Prod.fst).zip bufs) h
  return (h, places)

/-- `Load`. -/
def load : Except Stop (Word × Host δ) := do
  let (h, places) ← im.loadSegments sort pl h
  let m ← initWrites B (places.map Prod.snd) 0 im.writes h.m
  match places[im.entrySeg.toNat]? with
  | none => .error .panic
  | some p => return (p.1 + im.entryOff, { h with m := m })

end Image

end DmaCpu.Dmx
