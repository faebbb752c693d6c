-- SUMMARY: The loader that runs on the chip, `dmx.c`, with a log of what it looks at, relocates and writes.
import DmaCpu.Lib.Logged
import DmaCpu.Dmx.Image
import DmaCpu.Emu.Variant

/-!
# The C loader

`dmx_load` with `size_t` of 32 bits: every offset, product and sum is a word and
wraps. The image is given by the byte at every offset from its first one, so a
read past `len` yields whatever the memory holds there. The loader's own stores
go through a `Bus`, of which nothing is assumed here; the image is not among the
memory it writes.
-/
namespace DmaCpu.Dmx

def maxSegments : Word := 16

inductive Err where
  | truncated
  | magic
  | flags
  /-- Table index or offset out of range. -/
  | range
  /-- Segment or entry alignment violated. -/
  | align
  | tooMany
  /-- Bad machine configuration. -/
  | config
deriving DecidableEq, Repr

/-- What is on the other side of the loader's stores. -/
structure Bus (σ : Type) where
  read : σ → Word → Word
  write : σ → Word → Word → σ

inductive Access where
  /-- A byte of the image was read, at this offset. -/
  | look (off : Word)
  /-- The word at this address was rebased. -/
  | relocate (addr : Word)
  /-- A store through `mmio_write`. -/
  | mmio (addr val : Word)
deriving DecidableEq, Repr

/-- The arguments of `dmx_load`. A null placement is `none`; an address 0 in it
    stands for the link address. -/
structure Source where
  image : Word → Byte
  len : Word
  pl : Option (Nat → Word)

/-- One entry of `place`, `delta` and `size`. -/
structure Placed where
  place : Word
  delta : Word
  size : Word
deriving DecidableEq, Repr, Inhabited

abbrev LoadM (σ : Type) := Logged σ Access Err

/-- The word at an offset, least significant byte first. -/
def Source.word (s : Source) (off : Word) : Word :=
  s.image (off + 3) ++ s.image (off + 2) ++ s.image (off + 1) ++ s.image off

def Source.place (s : Source) (i : Nat) (link : Word) : Word :=
  match s.pl with
  | some addr => if addr i ≠ 0 then addr i else link
  | none => link

/-- The byte at an offset of an image given by its words. -/
def ofWords (ws : List Word) (off : Word) : Byte :=
  (ws.getD (off.toNat / 4) 0).extractLsb' (8 * (off.toNat % 4)) 8

def segTab : Word := 7 * 4

section Loader

open Logged

variable {σ : Type} (bus : Bus σ) (s : Source)

def rd32 (off : Word) : LoadM σ Word := do
  emits [.look off, .look (off + 1), .look (off + 2), .look (off + 3)]
  return s.word off

def wr32Sram (addr val : Word) : LoadM σ Unit := act fun m => bus.write m addr val

def rd32Sram (addr : Word) : LoadM σ Word := ask fun m => bus.read m addr

def mmioWrite (addr val : Word) : LoadM σ Unit := do
  emits [.mmio addr val]
  act fun m => bus.write m addr val

/-- A round of the loop over the segment table; the accumulator is the entries so
    far and `need`. -/
def segRound (i : Nat) (acc : List Placed × Word) : LoadM σ (List Placed × Word) := do
  let link ← rd32 s (segTab + BitVec.ofNat 32 i * 8)
  let size ← rd32 s (segTab + BitVec.ofNat 32 i * 8 + 4)
  let place := s.place i link
  refuse (place % 4 ≠ 0 ∨ size % 4 ≠ 0) .align
  return (acc.1 ++ [⟨place, place - link, size⟩], acc.2 + size)

/-- The inner copy loop, by the rounds left. -/
def copyWords (place src : Word) : Nat → Word → LoadM σ Unit
  | 0, _ => pure ()
  | k + 1, off => do
    let w ← rd32 s (src + off)
    wr32Sram bus (place + off) w
    copyWords place src k (off + 4)

/-- Copy segments to their placed addresses. -/
def copySegs : List Placed → Word → LoadM σ Unit
  | [], _ => pure ()
  | p :: ps, src => do
    copyWords bus s p.place src (p.size.toNat / 4) 0
    copySegs ps (src + p.size)

/-- A round of the relocation loop. -/
def relocRound (segs : List Placed) (nSeg relTab : Word) (i : Nat) (_ : Unit) :
    LoadM σ Unit := do
  let seg ← rd32 s (relTab + BitVec.ofNat 32 i * 12)
  let off ← rd32 s (relTab + BitVec.ofNat 32 i * 12 + 4)
  let ref ← rd32 s (relTab + BitVec.ofNat 32 i * 12 + 8)
  refuse (nSeg ≤ seg ∨ nSeg ≤ ref ∨ off % 4 ≠ 0 ∨ (segs.getD seg.toNat default).size < off + 4)
    .range
  let addr := (segs.getD seg.toNat default).place + off
  emits [.relocate addr]
  let w ← rd32Sram bus addr
  wr32Sram bus addr (w + (segs.getD ref.toNat default).delta)

/-- A round of the loop over the init writes, in table order. -/
def writeRound (segs : List Placed) (nSeg wrTab : Word) (i : Nat) (_ : Unit) :
    LoadM σ Unit := do
  let addr ← rd32 s (wrTab + BitVec.ofNat 32 i * 12)
  let val ← rd32 s (wrTab + BitVec.ofNat 32 i * 12 + 4)
  let ref ← rd32 s (wrTab + BitVec.ofNat 32 i * 12 + 8)
  refuse (ref ≠ refAbs ∧ nSeg ≤ ref) .range
  mmioWrite bus addr (if ref ≠ refAbs then val + (segs.getD ref.toNat default).delta else val)

/-- `dmx_load` from the layout of the tables on; the result is the entry address. -/
def loadTables (nSeg nRel nWr entrySeg entryOff : Word) : LoadM σ Word := do
  let relTab := segTab + nSeg * 8
  let wrTab := relTab + nRel * 12
  let segData := wrTab + nWr * 12
  refuse (s.len < segData) .truncated
  let (segs, need) ← loop (segRound s) nSeg.toNat 0 ([], segData)
  refuse (s.len < need) .truncated
  copySegs bus s segs segData
  loop (relocRound bus s segs nSeg relTab) nRel.toNat 0 ()
  loop (writeRound bus s segs nSeg wrTab) nWr.toNat 0 ()
  refuse (nSeg ≤ entrySeg ∨ (segs.getD entrySeg.toNat default).size ≤ entryOff) .range
  let entry := (segs.getD entrySeg.toNat default).place + entryOff
  -- Format-level granularity is one compact record; `dmx_start` checks the encoding's own rule.
  refuse (entry % 8 ≠ 0) .align
  return entry

/-- `dmx_load`. -/
def dmxLoad : LoadM σ Word := do
  refuse (s.len < 7 * 4) .truncated
  let m ← rd32 s 0
  refuse (m ≠ magic) .magic
  let flags ← rd32 s 4
  refuse (flags ≠ 0) .flags
  let nSeg ← rd32 s 8
  let nRel ← rd32 s 12
  let nWr ← rd32 s 16
  let entrySeg ← rd32 s 20
  let entryOff ← rd32 s 24
  refuse (maxSegments < nSeg) .tooMany
  loadTables bus s nSeg nRel nWr entrySeg entryOff

end Loader

/-! ## Starting -/

/-- `dmx_machine_cfg`. -/
structure MachineCfg where
  fetch : Nat
  exec : Nat
  fix : Nat
  scratch : Word
  compact : Bool
deriving DecidableEq, Repr

def chReg (ch : Nat) (off : Word) : Word := 0x50000000 + BitVec.ofNat 32 ch * 0x40 + off

-- The CTRL fields of the chip the loader is compiled for.

def ctrlEn : Word := 1 <<< 0
def ctrlSize32 : Word := 2 <<< 2
def ctrlIncrRead : Word := 1 <<< 4

def ctrlIncrWrite : Emu.Variant → Word
  | .rp2350 => 1 <<< 6
  | .rp2040 => 1 <<< 5

def ctrlRingSize : Emu.Variant → Word → Word
  | .rp2350, n => n <<< 8
  | .rp2040, n => n <<< 6

def ctrlRingSel : Emu.Variant → Word
  | .rp2350 => 1 <<< 12
  | .rp2040 => 1 <<< 10

def ctrlChainTo : Emu.Variant → Nat → Word
  | .rp2350, ch => BitVec.ofNat 32 ch <<< 13
  | .rp2040, ch => BitVec.ofNat 32 ch <<< 11

def ctrlTreqPermanent : Emu.Variant → Word
  | .rp2350 => 0x3F <<< 17
  | .rp2040 => 0x3F <<< 15

def ctrlIRQQuiet : Emu.Variant → Word
  | .rp2350 => 1 <<< 23
  | .rp2040 => 1 <<< 21

section Start

open Logged

variable {σ : Type} (v : Emu.Variant) (bus : Bus σ)

def mmioWrites : List (Word × Word) → LoadM σ Unit
  | [] => pure ()
  | w :: ws => do
    mmioWrite bus w.1 w.2
    mmioWrites ws

/-- The register writes of the compact form: fetch only. -/
def compactWrites (entry : Word) : List (Word × Word) :=
  let cfetch := 7
  let cplain := 0
  let window := chReg cplain 0x28
  [(chReg cfetch 0x00, entry),
   (chReg cfetch 0x04, window),
   (chReg cfetch 0x08, 2),
   (chReg cfetch 0x0C, ctrlEn ||| ctrlSize32 ||| ctrlIncrRead ||| ctrlIncrWrite v ||| ctrlRingSel v |||
      ctrlRingSize v 3 ||| ctrlTreqPermanent v ||| ctrlChainTo v cfetch ||| ctrlIRQQuiet v)]

/-- The register writes of the classic form: fix, then fetch, whose CTRL starts it. -/
def classicWrites (cfg : MachineCfg) (entry : Word) : List (Word × Word) :=
  let execRegs := chReg cfg.exec 0
  let fetchCtrl := ctrlEn ||| ctrlSize32 ||| ctrlIncrRead ||| ctrlIncrWrite v ||| ctrlTreqPermanent v |||
    ctrlChainTo v cfg.fetch ||| ctrlIRQQuiet v
  [(chReg cfg.fix 0x14, cfg.scratch),
   (chReg cfg.fix 0x18, chReg cfg.fetch 0x2C),
   (chReg cfg.fix 0x24, 1),
   (chReg cfg.fix 0x10, ctrlEn ||| ctrlSize32 ||| ctrlTreqPermanent v ||| ctrlChainTo v cfg.fix |||
      ctrlIRQQuiet v),
   (chReg cfg.fetch 0x00, entry),
   (chReg cfg.fetch 0x04, execRegs),
   (chReg cfg.fetch 0x08, 4),
   (chReg cfg.fetch 0x0C, fetchCtrl)]

/-- `dmx_start`. -/
def dmxStart (cfg : MachineCfg) (entry : Word) : LoadM σ Unit :=
  if cfg.compact then do
    refuse (entry % 8 ≠ 0) .align
    mmioWrites bus (compactWrites v entry)
  else do
    refuse (cfg.fetch = cfg.exec ∨ cfg.exec = cfg.fix ∨ cfg.fetch = cfg.fix) .config
    refuse (entry % 16 ≠ 0) .align
    wr32Sram bus cfg.scratch (chReg cfg.exec 0)
    mmioWrites bus (classicWrites v cfg entry)

end Start

end DmaCpu.Dmx
