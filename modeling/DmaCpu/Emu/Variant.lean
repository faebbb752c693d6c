-- SUMMARY: The two chip variants: register offsets, CTRL bit layout, and the encodings built from them.
import DmaCpu.Lib.Bytes

/-!
# Variants

`regs.go` and `variant.go`. The two chips share the programming model and differ
in the encodings, so a variant is an enumeration and every field of the source's
table is a function on it. A zero mask stands for a bit the chip does not have.
-/
namespace DmaCpu.Emu

/-! ## Addresses and bits common to both chips -/

def sramBase : Nat := 0x20000000
def dmaBase : Nat := 0x50000000
def xipBase : Nat := 0x10000000

def aliasXOR : Nat := 0x1000
def aliasSet : Nat := 0x2000
def aliasClr : Nat := 0x3000

def chanStride : Nat := 0x40

def offReadAddr : Nat := 0x00
def offWriteAddr : Nat := 0x04
def offTransCount : Nat := 0x08
def offCtrlTrig : Nat := 0x0C
def offAl1Ctrl : Nat := 0x10
def offAl1ReadAddr : Nat := 0x14
def offAl1WriteAddr : Nat := 0x18
def offAl1TransCountTrig : Nat := 0x1C
def offAl2Ctrl : Nat := 0x20
def offAl2TransCount : Nat := 0x24
def offAl2ReadAddr : Nat := 0x28
def offAl2WriteAddrTrig : Nat := 0x2C
def offAl3Ctrl : Nat := 0x30
def offAl3WriteAddr : Nat := 0x34
def offAl3TransCount : Nat := 0x38
def offAl3ReadAddrTrig : Nat := 0x3C

def offIntr : Nat := 0x400
def offIrqBlock : Nat := 0x404

def ctrlEN : Word := 0x1
def ctrlHighPriority : Word := 0x2
def ctrlSize8 : Word := 0x0
def ctrlSize16 : Word := 0x4
def ctrlSize32 : Word := 0x8
def ctrlIncrRead : Word := 0x10

def treqTimer0 : Word := 0x3B
def treqPermanent : Word := 0x3F

def sniffCtrlEN : Word := 0x1
def sniffCtrlBswap : Word := 0x200
def sniffCtrlOutRev : Word := 0x400
def sniffCtrlOutInv : Word := 0x800

def sniffCalcCRC32 : Word := 0x0
def sniffCalcCRC32R : Word := 0x1
def sniffCalcCRC16 : Word := 0x2
def sniffCalcCRC16R : Word := 0x3
def sniffCalcEven : Word := 0xE
def sniffCalcSum : Word := 0xF

def sniffCtrlDmach (ch : Nat) : Word := (BitVec.ofNat 32 ch &&& 0xF) <<< 1
def sniffCtrlCalc (c : Word) : Word := (c &&& 0xF) <<< 5
def sniffDmach (ctrl : Word) : Nat := ((ctrl >>> 1) &&& 0xF).toNat
def sniffCalc (ctrl : Word) : Word := (ctrl >>> 5) &&& 0xF

/-- `DATA_SIZE`; the fourth encoding is reserved. -/
def ctrlDataSize (ctrl : Word) : Option Width :=
  match ((ctrl >>> 2) &&& 0x3).toNat with
  | 0 => some .byte
  | 1 => some .half
  | 2 => some .word
  | _ => none

def chanRegAddr (ch off : Nat) : Word := BitVec.ofNat 32 (dmaBase + ch * chanStride + off)

def transModeNormal : Word := 0x0
def transModeTriggerSelf : Word := 0x1
def transModeEndless : Word := 0xF

/-! ## The table -/

inductive Variant where
  | rp2040
  | rp2350
deriving DecidableEq, Repr

namespace Variant

def nChannels : Variant → Nat
  | rp2040 => 12
  | rp2350 => 16

def nIRQs : Variant → Nat
  | rp2040 => 2
  | rp2350 => 4

/-- A channel writing its own `TRANS_COUNT` while it runs is dead afterwards. -/
def selfCountWedge : Variant → Bool
  | rp2040 => true
  | rp2350 => false

def offTimer0 : Variant → Nat
  | rp2040 => 0x420
  | rp2350 => 0x440

def offMultiChanTrigger : Variant → Nat
  | rp2040 => 0x430
  | rp2350 => 0x450

def offSniffCtrl : Variant → Nat
  | rp2040 => 0x434
  | rp2350 => 0x454

def offSniffData : Variant → Nat
  | rp2040 => 0x438
  | rp2350 => 0x458

def offChanAbort : Variant → Nat
  | rp2040 => 0x444
  | rp2350 => 0x464

def offNChannels : Variant → Nat
  | rp2040 => 0x448
  | rp2350 => 0x468

def ctrlIncrReadRev : Variant → Word
  | rp2040 => 0
  | rp2350 => 0x20

def ctrlIncrWrite : Variant → Word
  | rp2040 => 0x20
  | rp2350 => 0x40

def ctrlIncrWriteRev : Variant → Word
  | rp2040 => 0
  | rp2350 => 0x80

def ctrlRingSel : Variant → Word
  | rp2040 => 0x400
  | rp2350 => 0x1000

def ctrlIRQQuiet : Variant → Word
  | rp2040 => 0x200000
  | rp2350 => 0x800000

def ctrlBswap : Variant → Word
  | rp2040 => 0x400000
  | rp2350 => 0x1000000

def ctrlSniffEn : Variant → Word
  | rp2040 => 0x800000
  | rp2350 => 0x2000000

def ctrlBusy : Variant → Word
  | rp2040 => 0x1000000
  | rp2350 => 0x4000000

def ctrlRingSizeLSB : Variant → Nat
  | rp2040 => 6
  | rp2350 => 8

def ctrlChainToLSB : Variant → Nat
  | rp2040 => 11
  | rp2350 => 13

def ctrlTreqSelLSB : Variant → Nat
  | rp2040 => 15
  | rp2350 => 17

/-- `TRANS_COUNT` has a mode nibble over a 28-bit count. -/
def transCountMode : Variant → Bool
  | rp2040 => false
  | rp2350 => true

def dreqSPI0TX : Variant → Word
  | rp2040 => 16
  | rp2350 => 24

def dreqSPI0RX : Variant → Word
  | rp2040 => 17
  | rp2350 => 25

def dreqUART0TX : Variant → Word
  | rp2040 => 20
  | rp2350 => 28

def dreqUART0RX : Variant → Word
  | rp2040 => 21
  | rp2350 => 29

def dreqHSTX : Variant → Word
  | rp2040 => 0
  | rp2350 => 52

def dreqXIPStream : Variant → Word
  | rp2040 => 0
  | rp2350 => 49

/-! ## CTRL words -/

variable (v : Variant)

def ctrlRingSize (n : Word) : Word := (n &&& 0xF) <<< v.ctrlRingSizeLSB
def ctrlChainTo (ch : Nat) : Word := (BitVec.ofNat 32 ch &&& 0xF) <<< v.ctrlChainToLSB
def ctrlTreq (sel : Word) : Word := (sel &&& 0x3F) <<< v.ctrlTreqSelLSB

def ringSizeOf (ctrl : Word) : Nat := ((ctrl >>> v.ctrlRingSizeLSB) &&& 0xF).toNat
def chainToOf (ctrl : Word) : Nat := ((ctrl >>> v.ctrlChainToLSB) &&& 0xF).toNat
def treqSelOf (ctrl : Word) : Word := (ctrl >>> v.ctrlTreqSelLSB) &&& 0x3F

def transCount (reload : Word) : Word :=
  if v.transCountMode then reload &&& 0x0FFFFFFF else reload

def transMode (reload : Word) : Word :=
  if v.transCountMode then reload >>> 28 else transModeNormal

/-! ## Addresses -/

def sniffCtrlAddr : Word := BitVec.ofNat 32 (dmaBase + v.offSniffCtrl)
def sniffDataAddr : Word := BitVec.ofNat 32 (dmaBase + v.offSniffData)
def sniffDataXORAddr : Word := BitVec.ofNat 32 (dmaBase + aliasXOR + v.offSniffData)
def sniffDataSetAddr : Word := BitVec.ofNat 32 (dmaBase + aliasSet + v.offSniffData)
def sniffDataClrAddr : Word := BitVec.ofNat 32 (dmaBase + aliasClr + v.offSniffData)

end Variant

end DmaCpu.Emu
