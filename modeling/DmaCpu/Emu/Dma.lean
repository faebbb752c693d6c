-- SUMMARY: The DMA block of `dma.go`: channels, pacing timers, sniffer, register accesses, triggers and chains.
import DmaCpu.Emu.Variant

/-!
# The DMA block

A channel holds what the source's `channel` holds. Its caches (the decoded CTRL
fields, the ready and listener sets, the resolved memory windows) are written
only to mirror CTRL and the channel state, so here they are functions of that
state.
-/
namespace DmaCpu.Emu

open Function

/-! ## Channels -/

/-- Reverse the byte order within the transfer size. -/
def bswap (w : Word) : Width → Word
  | .byte => w
  | .half => (w.extractLsb' 0 8 ++ w.extractLsb' 8 8).setWidth 32
  | .word => w.extractLsb' 0 8 ++ w.extractLsb' 8 8 ++ w.extractLsb' 16 8 ++ w.extractLsb' 24 8

structure Channel where
  readAddr : Word := 0
  writeAddr : Word := 0
  ctrl : Word := 0
  /-- `TRANS_COUNT` as last written; loaded on trigger. -/
  reload : Word := 0
  remaining : Word := 0
  mode : Word := 0
  busy : Bool := false
  wedged : Bool := false
  credit : Nat := 0
deriving DecidableEq

namespace Channel

variable (v : Variant) (c : Channel)

def enabled : Bool := c.ctrl &&& ctrlEN ≠ 0
def highPriority : Bool := c.ctrl &&& ctrlHighPriority ≠ 0
def treq : Word := v.treqSelOf c.ctrl
def chainTo : Nat := v.chainToOf c.ctrl
def bswap : Bool := c.ctrl &&& v.ctrlBswap ≠ 0
/-- The datum as the channel passes it on. -/
def swap (datum : Word) (w : Width) : Word := if c.bswap v then Emu.bswap datum w else datum

def sniffEn : Bool := c.ctrl &&& v.ctrlSniffEn ≠ 0
def irqQuiet : Bool := c.ctrl &&& v.ctrlIRQQuiet ≠ 0

/-- `1 << sizeLog`, the reserved encoding included. -/
def sizeBytes : Word :=
  match ctrlDataSize c.ctrl with
  | some w => BitVec.ofNat 32 w.bytes
  | none => 8

def strideR : Word :=
  if c.ctrl &&& ctrlIncrRead ≠ 0 then
    if c.ctrl &&& v.ctrlIncrReadRev ≠ 0 then -c.sizeBytes else c.sizeBytes
  else 0

def strideW : Word :=
  if c.ctrl &&& v.ctrlIncrWrite ≠ 0 then
    if c.ctrl &&& v.ctrlIncrWriteRev ≠ 0 then -c.sizeBytes else c.sizeBytes
  else 0

def ringMask : Word := BitVec.ofNat 32 (2 ^ v.ringSizeOf c.ctrl - 1)
def ringMaskR : Word := if c.ctrl &&& v.ctrlRingSel ≠ 0 then 0 else c.ringMask v
def ringMaskW : Word := if c.ctrl &&& v.ctrlRingSel ≠ 0 then c.ringMask v else 0

/-- The channel at the end of a sequence. -/
def free : Channel := { c with busy := false }

/-- A trigger loads the mode and drops banked credit. -/
def latch : Channel := { c with mode := v.transMode c.reload, credit := 0 }

/-- A trigger that starts a sequence loads the count as well. -/
def launch : Channel := { c.latch v with busy := true, remaining := v.transCount c.reload }

def zeroLength : Bool := v.transCount c.reload = 0 && v.transMode c.reload ≠ transModeEndless

/-- The channel `k` words later. -/
def onward (k : Nat) : Channel :=
  { c with
    readAddr := c.readAddr + BitVec.ofNat 32 k * c.strideR v
    writeAddr := c.writeAddr + BitVec.ofNat 32 k * c.strideW v
    remaining := c.remaining - BitVec.ofNat 32 k }

/-- `runnable`: the channel can issue a transfer this cycle. -/
def runnable : Bool :=
  !c.wedged && c.busy && c.enabled && (c.treq v == treqPermanent || 0 < c.credit)

end Channel

structure Timer where
  /-- Dividend in the upper half, divisor in the lower. -/
  reg : Word := 0
  acc : Nat := 0
  last : Nat := 0
  next : Nat := 0

namespace Timer

def x (t : Timer) : Nat := (t.reg >>> 16).toNat
def y (t : Timer) : Nat := (t.reg &&& 0xFFFF).toNat
def active (t : Timer) : Bool := t.x ≠ 0 && t.y ≠ 0

/-- `timerRecalc`: schedule the next pulse from the accumulator. -/
def recalc (t : Timer) (now : Nat) : Timer :=
  if t.active then
    { t with
      last := now
      next := now + (if t.acc < t.y then max 1 ((t.y - t.acc + t.x - 1) / t.x) else 1) }
  else { t with last := now, next := 2 ^ 64 - 1 }

end Timer

structure Dma where
  ch : Nat → Channel
  timers : Nat → Timer
  sniffCtrl : Word
  sniffData : Word
  intr : Word
  inte : Nat → Word
  intf : Nat → Word

namespace Dma

variable (v : Variant)

def setCh (d : Dma) (i : Nat) (c : Channel) : Dma := { d with ch := update d.ch i c }

@[simp] theorem setCh_ch (d : Dma) (i : Nat) (c : Channel) :
    (d.setCh i c).ch = update d.ch i c := rfl

theorem setCh_setCh (d : Dma) (i : Nat) (c c' : Channel) :
    (d.setCh i c).setCh i c' = d.setCh i c' := by
  unfold setCh
  rw [update_idem]

theorem setCh_comm (d : Dma) {i j : Nat} (h : i ≠ j) (c c' : Channel) :
    (d.setCh i c).setCh j c' = (d.setCh j c').setCh i c := by
  unfold setCh
  rw [update_comm h]

theorem setCh_same (d : Dma) (i : Nat) (c : Channel) : (d.setCh i c).ch i = c :=
  update_self ..

theorem setCh_self (d : Dma) (i : Nat) : d.setCh i (d.ch i) = d := by
  unfold setCh
  rw [update_eq_self]

theorem setCh_other (d : Dma) {i j : Nat} (h : j ≠ i) (c : Channel) : (d.setCh i c).ch j = d.ch j :=
  update_of_ne h ..

def withSniff (d : Dma) (ctrl data : Word) : Dma := { d with sniffCtrl := ctrl, sniffData := data }

/-- `intr |= 1 << chIdx`. -/
def raise (d : Dma) (i : Nat) : Dma := { d with intr := d.intr ||| (1 <<< i) }

/-! ## Triggers and chains -/

def maxChannels : Nat := 16

/-- The sequence is over: the channel is free, and says so unless it is quiet. -/
def finish (d : Dma) (i : Nat) : Dma :=
  if (d.ch i).irqQuiet v then d.setCh i (d.ch i).free else (d.setCh i (d.ch i).free).raise i

/-- Fire the chain; a channel that chains to itself has none. -/
def chain (trigger : Dma → Nat → Bool → Word → Dma) (d : Dma) (i next : Nat) : Dma :=
  if next ≠ i ∧ next < v.nChannels then trigger d next true (d.ch next).ctrl else d

/-- `TRIGGER_SELF`: the channel restarts itself. -/
def again (trigger : Dma → Nat → Bool → Word → Dma) (d : Dma) (i : Nat) : Dma :=
  if (d.ch i).mode = transModeTriggerSelf then trigger d i true (d.ch i).ctrl else d

/-- `complete`, over the trigger it fires the chain with. -/
def completeWith (trigger : Dma → Nat → Bool → Word → Dma) (d : Dma) (i : Nat) : Dma :=
  again trigger (chain v trigger (d.finish v i) i ((d.ch i).chainTo v)) i

/-- `trigger`. The fuel is what `zeroDepth` leaves of the cascade of zero-length
    sequences: with none left such a sequence is dropped. -/
def trigger : Nat → Dma → Nat → Bool → Word → Dma
  | fuel, d, i, rawNonZero, quietCtrl =>
    let c := d.ch i
    if !rawNonZero then
      if quietCtrl &&& v.ctrlIRQQuiet ≠ 0 then d.raise i else d
    else if !c.enabled || c.busy then d
    else if c.zeroLength v then
      match fuel with
      | 0 => d.setCh i (c.latch v)
      | fuel + 1 => completeWith v (trigger fuel) (d.setCh i (c.latch v)) i
    else d.setCh i (c.launch v)

def zeroDepthMax : Nat := 2 * maxChannels

def complete (d : Dma) (i : Nat) : Dma := completeWith v (trigger v zeroDepthMax) d i

/-! ## Registers -/

/-- The registers of a channel: what each of the sixteen offsets stands for. -/
inductive Reg where
  | readAddr
  | writeAddr
  | transCount
  | ctrl
deriving DecidableEq, Repr

def regOf (reg : Nat) : Option Reg :=
  if reg = offReadAddr ∨ reg = offAl1ReadAddr ∨ reg = offAl2ReadAddr ∨ reg = offAl3ReadAddrTrig then
    some .readAddr
  else if reg = offWriteAddr ∨ reg = offAl1WriteAddr ∨ reg = offAl2WriteAddrTrig ∨
      reg = offAl3WriteAddr then
    some .writeAddr
  else if reg = offTransCount ∨ reg = offAl1TransCountTrig ∨ reg = offAl2TransCount ∨
      reg = offAl3TransCount then
    some .transCount
  else if reg = offCtrlTrig ∨ reg = offAl1Ctrl ∨ reg = offAl2Ctrl ∨ reg = offAl3Ctrl then
    some .ctrl
  else none

/-- The last register of each alias row is a trigger. -/
def isTrig (reg : Nat) : Bool :=
  reg = offCtrlTrig || reg = offAl1TransCountTrig || reg = offAl2WriteAddrTrig ||
    reg = offAl3ReadAddrTrig

/-- The per-IRQ blocks `{INTE, INTF, INTS}`; the fourth slot of a stride is not theirs. -/
def inIrqBlock (off : Nat) : Bool :=
  offIrqBlock ≤ off && off < offIrqBlock + v.nIRQs * 0x10 && (off - offIrqBlock) % 0x10 ≤ 8

def sniffShown (ctrl data : Word) : Word :=
  let w := if ctrl &&& sniffCtrlOutRev ≠ 0 then data.reverse else data
  if ctrl &&& sniffCtrlOutInv ≠ 0 then ~~~w else w

def sniffOut (d : Dma) : Word := sniffShown d.sniffCtrl d.sniffData

def chanRead (c : Channel) (reg : Nat) : Word :=
  match regOf reg with
  | some .readAddr => c.readAddr
  | some .writeAddr => c.writeAddr
  | some .transCount => c.remaining
  | some .ctrl => if c.busy then c.ctrl ||| v.ctrlBusy else c.ctrl
  | none => 0

def irqRead (d : Dma) (off : Nat) : Word :=
  let i := (off - offIrqBlock) / 0x10
  match (off - offIrqBlock) % 0x10 with
  | 0 => d.inte i
  | 4 => d.intf i
  | _ => (d.intr ||| d.intf i) &&& d.inte i

def regRead (d : Dma) (off : Nat) : Word :=
  if off < v.nChannels * chanStride then chanRead v (d.ch (off / chanStride)) (off % chanStride)
  else if inIrqBlock v off then d.irqRead off
  else if off = offIntr then d.intr
  else if v.offTimer0 ≤ off ∧ off ≤ v.offTimer0 + 12 ∧ (off - v.offTimer0) % 4 = 0 then
    (d.timers ((off - v.offTimer0) / 4)).reg
  else if off = v.offSniffCtrl then d.sniffCtrl
  else if off = v.offSniffData then d.sniffOut
  else if off = v.offNChannels then BitVec.ofNat 32 v.nChannels
  else 0

/-- The channels a bit mask names, in the order of the source's loops. -/
def maskChannels (val : Word) : List Nat :=
  (List.range v.nChannels).filter fun i => val.getLsbD i

def writeChan (c : Channel) (reg : Reg) (val : Word) : Channel :=
  match reg with
  | .readAddr => { c with readAddr := val }
  | .writeAddr => { c with writeAddr := val }
  | .transCount => { c with reload := val }
  | .ctrl => { c with ctrl := val &&& ~~~v.ctrlBusy }

def storeReg (d : Dma) (i reg : Nat) (val : Word) : Dma :=
  match regOf reg with
  | some r => d.setCh i (writeChan v (d.ch i) r val)
  | none => d

/-- A write to a register of channel `i`. A null trigger is judged on the CTRL
    word in effect before the write. -/
def chanWrite (d : Dma) (i reg : Nat) (val : Word) (rawNonZero : Bool) : Dma :=
  if isTrig reg then trigger v zeroDepthMax (d.storeReg v i reg val) i rawNonZero (d.ch i).ctrl
  else d.storeReg v i reg val

def irqWrite (d : Dma) (off : Nat) (val : Word) : Dma :=
  let i := (off - offIrqBlock) / 0x10
  match (off - offIrqBlock) % 0x10 with
  | 0 => { d with inte := update d.inte i val }
  | 4 => { d with intf := update d.intf i val }
  | _ => { d with intr := d.intr &&& ~~~val }

def timerWrite (d : Dma) (now i : Nat) (val : Word) : Dma :=
  { d with timers := update d.timers i (({ d.timers i with reg := val }).recalc now) }

def multiTrigger (d : Dma) (val : Word) : Dma :=
  (maskChannels v val).foldl (fun d i => trigger v zeroDepthMax d i true (d.ch i).ctrl) d

def chanAbort (d : Dma) (val : Word) : Dma :=
  (maskChannels v val).foldl
    (fun d i => d.setCh i { d.ch i with busy := false, remaining := 0 }) d

/-- `regWrite`: `val` is the register's new value, `rawNonZero` says whether the
    value on the bus was nonzero, which is what a null trigger goes by. -/
def regWrite (d : Dma) (now off : Nat) (val : Word) (rawNonZero : Bool) : Dma :=
  if off < v.nChannels * chanStride then
    d.chanWrite v (off / chanStride) (off % chanStride) val rawNonZero
  else if inIrqBlock v off then d.irqWrite off val
  else if off = offIntr then { d with intr := d.intr &&& ~~~val }
  else if v.offTimer0 ≤ off ∧ off ≤ v.offTimer0 + 12 ∧ (off - v.offTimer0) % 4 = 0 then
    d.timerWrite now ((off - v.offTimer0) / 4) val
  else if off = v.offMultiChanTrigger then d.multiTrigger v val
  else if off = v.offSniffCtrl then { d with sniffCtrl := val }
  else if off = v.offSniffData then { d with sniffData := val }
  else if off = v.offChanAbort then d.chanAbort v val
  else d

/-! ## Requests -/

def maxCredit : Nat := 63

/-- Change every channel of the chip that `p` selects. -/
def mapCh (d : Dma) (p : Channel → Bool) (f : Channel → Channel) : Dma :=
  { d with ch := fun i => if i < v.nChannels ∧ p (d.ch i) then f (d.ch i) else d.ch i }

/-- A channel on a given request line; line 0 stands for a line the chip lacks. -/
def listens (dreq : Word) (c : Channel) : Bool := dreq ≠ 0 && c.treq v == dreq

/-- The TX lines of PIO0 are 0 to 3, and a cleared CTRL decodes to line 0 as well. -/
def listensPio (sm : Nat) (c : Channel) : Bool := c.enabled && c.treq v == BitVec.ofNat 32 sm

def starved (c : Channel) : Bool := c.busy && c.credit == 0

/-- `levelDreq`: a listener that is armed and out of credit gets one. -/
def levelDreq (d : Dma) (p : Channel → Bool) : Dma :=
  mapCh v d (fun c => p c && starved c) fun c => { c with credit := 1 }

def anyStarved (d : Dma) (p : Channel → Bool) : Bool :=
  (List.range v.nChannels).any fun i => p (d.ch i) && starved (d.ch i)

/-- One pulse of pacing timer `i`. -/
def pulseTimer (i : Nat) (d : Dma) : Dma :=
  mapCh v d (fun c => c.treq v == treqTimer0 + BitVec.ofNat 32 i && decide (c.credit < maxCredit))
    fun c => { c with credit := c.credit + 1 }

/-- The pulses of timer `i` that are due at cycle `now`. -/
def fireTimer (now : Nat) (d : Dma) (i : Nat) : Dma :=
  let t := d.timers i
  if t.active && decide (t.next ≤ now) then
    let total := t.acc + t.x * (now - t.last)
    let d := (pulseTimer v i)^[total / t.y] d
    let acc := total % t.y
    let next := now + max 1 ((t.y - acc + t.x - 1) / t.x)
    { d with timers := update d.timers i { t with acc := acc, last := now, next := next } }
  else d

def fireDue (d : Dma) (now : Nat) : Dma := (List.range 4).foldl (fireTimer v now) d

def timersActive (d : Dma) : List Nat := (List.range 4).filter fun i => (d.timers i).active

/-- The cycle of the earliest pulse of an active timer. -/
def timerNextMin (d : Dma) : Nat :=
  d.timersActive.foldl (fun n i => min n (d.timers i).next) (2 ^ 64 - 1)

/-- The channels that can issue a transfer. -/
def ready (d : Dma) : List Nat := (List.range v.nChannels).filter fun i => (d.ch i).runnable v

/-! ## The sniffer -/

/-- One bit of the CRC, most significant bit of the register first. -/
def crcBit (width : Nat) (poly mask : Word) (b : BitVec 8) (crc : Word) (bit : Nat) : Word :=
  let fb := ((crc >>> (width - 1)) &&& 1) ^^^ ((b.setWidth 32 >>> bit) &&& 1)
  let crc := (crc <<< 1) &&& mask
  if fb ≠ 0 then crc ^^^ poly else crc

def crcUpdate (crc datum : Word) (w : Width) (width : Nat) (poly : Word) (reflected : Bool) : Word :=
  let mask : Word := if width < 32 then (1 <<< width) - 1 else 0xFFFFFFFF
  let byte (i : Nat) : BitVec 8 :=
    if reflected then (datum.extractLsb' (8 * i) 8).reverse else datum.extractLsb' (8 * i) 8
  (List.range w.bytes).foldl
    (fun crc i => [7, 6, 5, 4, 3, 2, 1, 0].foldl (crcBit width poly mask (byte i)) crc) crc &&& mask

def onesCount (w : Word) : Word := BitVec.ofNat 32 ((List.range 32).countP fun i => w.getLsbD i)

/-- What a datum does to the accumulator. -/
def sniffed (ctrl acc datum : Word) (w : Width) : Word :=
  let datum := if ctrl &&& sniffCtrlBswap ≠ 0 then bswap datum w else datum
  if sniffCalc ctrl = sniffCalcSum then acc + datum
  else if sniffCalc ctrl = sniffCalcCRC32 then crcUpdate acc datum w 32 0x04C11DB7 false
  else if sniffCalc ctrl = sniffCalcCRC32R then crcUpdate acc datum w 32 0x04C11DB7 true
  else if sniffCalc ctrl = sniffCalcCRC16 then crcUpdate acc datum w 16 0x1021 false
  else if sniffCalc ctrl = sniffCalcCRC16R then crcUpdate acc datum w 16 0x1021 true
  else if sniffCalc ctrl = sniffCalcEven then (acc ^^^ onesCount datum) &&& 1
  else acc

def sniff (d : Dma) (i : Nat) (datum : Word) (w : Width) : Dma :=
  if d.sniffCtrl &&& sniffCtrlEN = 0 ∨ sniffDmach d.sniffCtrl ≠ i then d
  else { d with sniffData := sniffed d.sniffCtrl d.sniffData datum w }

/-! ## After a datum -/

/-- Step an address by the channel's stride, within the ring if there is one. -/
def advanceAddr (addr stride ringMask : Word) : Word :=
  if ringMask = 0 then addr + stride
  else (addr &&& ~~~ringMask) ||| ((addr + stride) &&& ringMask)

/-- The channel's pointers after a datum; a zero stride leaves them alone. -/
def advance (c : Channel) : Channel :=
  { c with
    readAddr := if c.strideR v ≠ 0 then advanceAddr c.readAddr (c.strideR v) (c.ringMaskR v)
      else c.readAddr
    writeAddr := if c.strideW v ≠ 0 then advanceAddr c.writeAddr (c.strideW v) (c.ringMaskW v)
      else c.writeAddr }

/-- The datum went to a `TRANS_COUNT` alias of the channel itself. -/
def ownCount (i : Nat) (writeAddr : Word) : Bool :=
  let off := (writeAddr - chanRegAddr i 0).toNat
  decide (off < chanStride) && regOf off == some .transCount

/-- `if remaining == 0 && busy { complete }`. -/
def conclude (d : Dma) (i : Nat) : Dma :=
  if (d.ch i).remaining = 0 ∧ (d.ch i).busy then d.complete v i else d

/-- Pointers, count and completion. All this works on the channel as the write
    left it. -/
def settle (d : Dma) (i : Nat) (writeAddr : Word) : Dma :=
  let c := advance v (d.ch i)
  if c.mode = transModeEndless then d.setCh i c
  else
    let c := { c with remaining := if c.remaining ≠ 0 then c.remaining - 1 else c.remaining }
    if v.selfCountWedge && ownCount i writeAddr then d.setCh i { c with wedged := true }
    else (d.setCh i c).conclude v i

/-- The second half of `transfer`: the datum has been written. -/
def deliver (d : Dma) (i : Nat) (writeAddr datum : Word) (w : Width) : Dma :=
  (if (d.ch i).sniffEn v then d.sniff i datum w else d).settle v i writeAddr

end Dma

end DmaCpu.Emu
