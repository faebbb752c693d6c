-- SUMMARY: The machine of `machine.go`: bus, arbiter, one-word transfers and the burst path.
import DmaCpu.Emu.Dma

/-!
# The machine

SRAM, the flash and PSRAM behind the XIP window, the DMA block and the scheduler.
Every other peripheral is a parameter: a `Board` says what an access to the
peripheral space does and how its request lines stand, and nothing here depends
on how it does that. An absent flash or PSRAM is a memory of size zero.
-/
namespace DmaCpu.Emu

inductive Fault where
  | unaligned (addr : Word)
  | bus (addr : Word)
  /-- A memory-mapped access while the QMI is in direct mode. -/
  | qmiSession (addr : Word)
  | reservedSize (ch : Nat)
  | device (code : Nat)
deriving DecidableEq, Repr

def psramWinOff : Nat := 0x01000000

/-- The memories. Each chip select of the XIP window spans 16 MiB. -/
structure Mem where
  sram : Ram
  flash : Ram
  psram : Ram
  sram_le : sram.size ≤ 0x82000
  flash_le : flash.size ≤ psramWinOff
  psram_le : psram.size ≤ psramWinOff

/-- The peripherals besides the DMA block, with state `δ`. -/
structure Board (δ : Type) where
  v : Variant
  /-- `EMU_NO_FAST`: no windows, no bursts. -/
  noFast : Bool
  read : δ → Mem → (cycle : Nat) → Word → Width → Except Fault (Word × δ)
  /-- A write may also program the flash, in place. -/
  write : δ → Mem → (cycle : Nat) → Word → Word → Width → Except Fault (δ × (Nat → BitVec 8))
  qmiDirect : δ → Bool
  streamCtr : δ → Nat
  spiTxDma : δ → Bool
  consoleIn : δ → Bool
  spiRx : δ → Bool
  txPace : δ → Nat
  lastTX : δ → Nat
  hstxPace : δ → Nat
  pioCtrl : δ → Word
  pioClkdiv : δ → Nat → Word

/-- A read-profiling window with its counts per word. -/
structure ProfWindow where
  lo : Word
  hi : Word
  counts : Nat → Nat

structure Machine (δ : Type) where
  mem : Mem
  dma : Dma
  dev : δ
  cycle : Nat
  hstxNext : Nat
  pioNext : Nat → Nat
  prof : List ProfWindow
  traced : Bool
  watch : List Word
  watchHit : Option Word
  rrLast : Nat

variable {δ : Type} (B : Board δ)

/-! ## Memories -/

namespace Mem

inductive Region where
  | sram
  | flash
  | psram
deriving DecidableEq, Repr

def region (m : Mem) : Region → Ram
  | .sram => m.sram
  | .flash => m.flash
  | .psram => m.psram

def store (m : Mem) (r : Region) (off : Nat) (val : Word) (w : Width) : Mem :=
  match r with
  | .sram => { m with sram := m.sram.store off val w }
  | .flash => { m with flash := m.flash.store off val w }
  | .psram => { m with psram := m.psram.store off val w }

def program (m : Mem) (bytes : Nat → BitVec 8) : Mem :=
  { m with flash := { m.flash with byte := bytes } }

variable (m : Mem) (addr : Word) (w : Width)

def inSRAM : Bool :=
  sramBase ≤ addr.toNat && addr.toNat - sramBase + w.bytes ≤ m.sram.size

/-- The XIP window, and the offset in it with the uncached alias folded. -/
def xipOff : Nat := (addr.toNat - xipBase) % 0x04000000

def inPSRAM : Bool :=
  xipBase ≤ addr.toNat && addr.toNat < xipBase + 0x08000000 && psramWinOff ≤ xipOff addr &&
    xipOff addr - psramWinOff + w.bytes ≤ m.psram.size

def inFlash : Bool :=
  (xipBase ≤ addr.toNat && addr.toNat - xipBase + w.bytes ≤ m.flash.size) ||
    (xipBase + 0x04000000 ≤ addr.toNat &&
      addr.toNat - (xipBase + 0x04000000) + w.bytes ≤ m.flash.size)

end Mem

def inDMA (addr : Word) : Bool := dmaBase ≤ addr.toNat && addr.toNat < dmaBase + 0x4000

def inMmio (addr : Word) : Bool := 0x40000000 ≤ addr.toNat && addr.toNat < 0x60000000

/-- The register offset and the atomic operation of an address in the DMA window. -/
def aliasOp (addr : Word) : Nat × Nat :=
  ((addr.toNat - dmaBase) % 0x1000, (addr.toNat - dmaBase) / 0x1000)

def applyAlias (cur val : Word) : Nat → Word
  | 1 => cur ^^^ val
  | 2 => cur ||| val
  | 3 => cur &&& ~~~val
  | _ => val

/-! ## Bus -/

/-- What a read of an aligned address yields. The DMA registers are given as a
    function of the offset. -/
def busRead (regs : Nat → Word) (mem : Mem) (dev : δ) (cycle : Nat) (addr : Word) (w : Width) :
    Except Fault (Word × δ) :=
  if addr.toNat % w.bytes ≠ 0 then .error (.unaligned addr)
  else if mem.inSRAM addr w then .ok (mem.sram.load (addr.toNat - sramBase) w, dev)
  else if inDMA addr then .ok (regs (aliasOp addr).1, dev)
  else if mem.inFlash addr w then
    if B.qmiDirect dev then .error (.qmiSession addr)
    else .ok (mem.flash.load (Mem.xipOff addr) w, dev)
  else if mem.inPSRAM addr w then
    if B.qmiDirect dev then .error (.qmiSession addr)
    else .ok (mem.psram.load (Mem.xipOff addr - psramWinOff) w, dev)
  else if inMmio addr then B.read dev mem cycle addr w
  else .error (.bus addr)

/-- What a write of an aligned address outside the DMA registers does. -/
def busWrite (mem : Mem) (dev : δ) (cycle : Nat) (addr val : Word) (w : Width) :
    Except Fault (Mem × δ) :=
  if mem.inSRAM addr w then .ok (mem.store .sram (addr.toNat - sramBase) val w, dev)
  else if mem.inPSRAM addr w then
    if B.qmiDirect dev then .error (.qmiSession addr)
    else .ok (mem.store .psram (Mem.xipOff addr - psramWinOff) val w, dev)
  else if inMmio addr then
    (B.write dev mem cycle addr val w).map fun r => (mem.program r.2, r.1)
  else .error (.bus addr)

namespace Machine

variable (m : Machine δ)

def setCh (i : Nat) (c : Channel) : Machine δ := { m with dma := m.dma.setCh i c }

/-- Count a read in the first window that holds the address. -/
def profCount (addr : Word) : List ProfWindow → List ProfWindow
  | [] => []
  | p :: ps =>
    if p.lo ≤ addr ∧ addr < p.hi then
      let i := ((addr - p.lo) >>> 2).toNat
      { p with counts := Function.update p.counts i (p.counts i + 1) } :: ps
    else p :: profCount addr ps

/-- `Read`. -/
def read (addr : Word) (w : Width) : Except Fault (Word × Machine δ) :=
  let m := { m with prof := profCount addr m.prof }
  (busRead B (Dma.regRead B.v m.dma) m.mem m.dev m.cycle addr w).map
    fun r => (r.1, { m with dev := r.2 })

/-- `Write`. A plain register write needs no read of the current value. -/
def write (addr val : Word) (w : Width) : Except Fault (Machine δ) :=
  if addr.toNat % w.bytes ≠ 0 then .error (.unaligned addr)
  else
    let m := if addr ∈ m.watch then { m with watchHit := some addr } else m
    if inDMA addr then
      let norm := (aliasOp addr).1
      let final := applyAlias (Dma.regRead B.v m.dma norm) val (aliasOp addr).2
      .ok { m with dma := Dma.regWrite B.v m.dma m.cycle norm final (val ≠ 0) }
    else
      (busWrite B m.mem m.dev m.cycle addr val w).map fun r => { m with mem := r.1, dev := r.2 }

/-! ## Memory windows -/

/-- `memWin`: a span of addresses backed by one memory, or by none. -/
structure MemWin where
  buf : Option Mem.Region
  lo : Nat
  hi : Nat

/-- `resolveWin`. -/
def resolveWin (addr : Word) (forWrite : Bool) : MemWin :=
  let a := addr.toNat
  if sramBase ≤ a ∧ a - sramBase < m.mem.sram.size then
    ⟨some .sram, sramBase, sramBase + m.mem.sram.size⟩
  else if inMmio addr then ⟨none, 0x40000000, 0x60000000⟩
  else if !B.qmiDirect m.dev && decide (xipBase ≤ a ∧ a < xipBase + 0x08000000) then
    let off := a % 0x04000000
    let block := a - off
    if psramWinOff ≤ off ∧ off - psramWinOff < m.mem.psram.size then
      ⟨some .psram, block + psramWinOff, block + psramWinOff + m.mem.psram.size⟩
    else if !forWrite && decide (off < m.mem.flash.size) then
      ⟨some .flash, block, block + m.mem.flash.size⟩
    else ⟨none, 0, 0⟩
  else ⟨none, 0, 0⟩

/-- The memory and the offset the fast path accesses directly, if it may. -/
def window (addr : Word) (w : Width) (forWrite : Bool) : Option (Mem.Region × Nat) :=
  let win := m.resolveWin B addr forWrite
  match win.buf with
  | some r =>
    if win.lo ≤ addr.toNat ∧ addr.toNat + w.bytes ≤ win.hi ∧ addr.toNat % w.bytes = 0 then
      some (r, addr.toNat - win.lo)
    else none
  | none => none

/-! ## One word -/

/-- The read half of a transfer: directly from a window, or over the bus. -/
def fetchDatum (addr : Word) (w : Width) : Except Fault (Word × Machine δ) :=
  match if B.noFast || !m.prof.isEmpty then none else m.window B addr w false with
  | some (r, off) => .ok ((m.mem.region r).load off w, m)
  | none => m.read B addr w

/-- The write half. -/
def storeDatum (addr val : Word) (w : Width) : Except Fault (Machine δ) :=
  match if B.noFast || !m.watch.isEmpty then none else m.window B addr w true with
  | some (r, off) => .ok { m with mem := m.mem.store r off val w }
  | none => m.write B addr val w

/-- A paced channel pays for the datum with a credit. -/
def payCredit (i : Nat) : Machine δ :=
  let c := m.dma.ch i
  if c.treq B.v ≠ treqPermanent ∧ 0 < c.credit then m.setCh i { c with credit := c.credit - 1 }
  else m

/-- `transfer`. -/
def transfer (i : Nat) : Except Fault (Machine δ) := do
  let m := m.payCredit B i
  let c := m.dma.ch i
  match ctrlDataSize c.ctrl with
  | none => .error (.reservedSize i)
  | some w =>
    let (datum, m) ← m.fetchDatum B c.readAddr w
    let datum := c.swap B.v datum w
    let m ← m.storeDatum B c.writeAddr datum w
    return { m with dma := m.dma.deliver B.v i c.writeAddr datum w }

/-! ## Bursts -/

/-- The cycles until the grant at cycle `next` is owed. -/
def due (next : Nat) : Nat := if m.cycle < next then next - m.cycle else 1

/-- `pacedGrantGap`, as the list of the gaps it takes the least of. -/
def pacedGrantGaps : List Nat :=
  let d := m.dma
  (if B.txPace m.dev ≠ 0 ∧ d.anyStarved B.v (Dma.listens B.v B.v.dreqUART0TX) then
    [m.due (B.lastTX m.dev + B.txPace m.dev)] else []) ++
  (if B.hstxPace m.dev ≠ 0 ∧ d.anyStarved B.v (Dma.listens B.v B.v.dreqHSTX) then
    [m.due m.hstxNext] else []) ++
  ((List.range 4).filter fun sm =>
    (B.pioCtrl m.dev).getLsbD sm && d.anyStarved B.v (Dma.listensPio B.v sm)).map
    fun sm => m.due (m.pioNext sm)

/-- `burstLen`: how many words may run as one burst. -/
def burstLen (i : Nat) : Nat :=
  let d := m.dma
  let c := d.ch i
  if c.treq B.v ≠ treqPermanent ∨ c.mode = transModeEndless ∨ c.sniffEn B.v ∨
      c.ringMaskR B.v ≠ 0 ∨ c.ringMaskW B.v ≠ 0 ∨ ctrlDataSize c.ctrl = none ∨
      m.traced ∨ m.watch ≠ [] ∨ B.streamCtr m.dev ≠ 0 then 1
  else
    let k := c.remaining.toNat
    let k := if d.timersActive ≠ [] then min (d.timerNextMin - m.cycle) k else k
    min ((m.pacedGrantGaps B).foldl min k) (2 ^ 16)

/-- The words one window has room for along the stride. -/
def room (stride size : Word) (a lo hi : Nat) (k : Nat) : Nat :=
  if stride = size then min ((hi - a) / size.toNat) k
  else if stride = 0 then k
  else min ((a - lo) / size.toNat + 1) k

/-- The loop of `burst`: `k` words from offset `ro` of one memory to offset `wo` of another. -/
def burstLoop (w : Width) (swap : Bool) (sr sw : Word) (rb wb : Mem.Region) :
    Nat → Mem → Word → Word → Mem
  | 0, mem, _, _ => mem
  | k + 1, mem, ro, wo =>
    let datum := (mem.region rb).load ro.toNat w
    let datum := if swap then bswap datum w else datum
    burstLoop w swap sr sw rb wb k (mem.store wb wo.toNat datum w) (ro + sr) (wo + sw)

/-- `burst`. -/
def burst (i k : Nat) : Except Fault (Machine δ) :=
  let c := m.dma.ch i
  match ctrlDataSize c.ctrl with
  | none => m.transfer B i
  | some w =>
    let rw := m.resolveWin B c.readAddr false
    let ww := m.resolveWin B c.writeAddr true
    match m.window B c.readAddr w false, m.window B c.writeAddr w true with
    | some (rb, ro), some (wb, wo) =>
      let k := room (c.strideR B.v) c.sizeBytes c.readAddr.toNat rw.lo rw.hi k
      let k := room (c.strideW B.v) c.sizeBytes c.writeAddr.toNat ww.lo ww.hi k
      if k < 2 then m.transfer B i
      else
        let mem := burstLoop w (c.bswap B.v) (c.strideR B.v) (c.strideW B.v) rb wb k m.mem
          (BitVec.ofNat 32 ro) (BitVec.ofNat 32 wo)
        let d := (m.dma.setCh i (c.onward B.v k)).conclude B.v i
        .ok { m with mem := mem, dma := d, cycle := m.cycle + (k - 1) }
    | _, _ => m.transfer B i

/-! ## Scheduler -/

/-- Grant a level request, where anyone listens. -/
def grant (p : Channel → Bool) (level : Bool) : Machine δ :=
  if level then { m with dma := m.dma.levelDreq B.v p } else m

/-- Somebody listens on the line. -/
def heard (p : Channel → Bool) : Bool := (List.range B.v.nChannels).any fun i => p (m.dma.ch i)

def serveHstx : Machine δ :=
  let p := Dma.listens B.v B.v.dreqHSTX
  if m.heard B p && (B.hstxPace m.dev == 0 || decide (m.hstxNext ≤ m.cycle)) then
    { m with
      dma := m.dma.levelDreq B.v p
      hstxNext := m.cycle + B.hstxPace m.dev }
  else m

def servePio (m : Machine δ) (sm : Nat) : Machine δ :=
  let p := Dma.listensPio B.v sm
  if m.heard B p && (B.pioCtrl m.dev).getLsbD sm && decide (m.pioNext sm ≤ m.cycle) then
    let div := (B.pioClkdiv m.dev sm >>> 16).toNat
    { m with
      dma := m.dma.levelDreq B.v p
      pioNext := Function.update m.pioNext sm (m.cycle + (if div = 0 then 1 else div) * 64) }
  else m

/-- What `step` does before it picks a channel: the cycle, the timers, the requests. -/
def serve : Machine δ :=
  let m := { m with cycle := m.cycle + 1 }
  let m := if m.dma.timersActive ≠ [] ∧ m.dma.timerNextMin ≤ m.cycle then
      { m with dma := m.dma.fireDue B.v m.cycle } else m
  let m := m.grant B (Dma.listens B.v B.v.dreqXIPStream) (0 < B.streamCtr m.dev)
  let m := m.grant B (Dma.listens B.v B.v.dreqSPI0TX) (B.spiTxDma m.dev)
  let m := m.grant B (Dma.listens B.v B.v.dreqUART0TX)
    (B.txPace m.dev == 0 || decide (B.txPace m.dev ≤ m.cycle - B.lastTX m.dev))
  let m := m.grant B (Dma.listens B.v B.v.dreqUART0RX) (B.consoleIn m.dev)
  let m := m.grant B (Dma.listens B.v B.v.dreqSPI0RX) (B.spiRx m.dev)
  let m := m.serveHstx B
  (List.range 4).foldl (servePio B) m

/-- High priority first, round robin within a class: the first ready channel
    after the last grant, else the lowest. -/
def arbiter (ready : List Nat) (hp : Nat → Bool) (rrLast : Nat) : Option Nat :=
  let pick := if (ready.filter hp).isEmpty then ready else ready.filter hp
  match pick.find? fun i => rrLast < i with
  | some i => some i
  | none => pick.head?

def burstMin : Nat := 16

/-- `step`, with the burst path as an option. The flag says whether a transfer
    was issued. -/
def stepWith (bursts : Bool) : Except Fault (Bool × Machine δ) :=
  let m := m.serve B
  let ready := m.dma.ready B.v
  match arbiter ready (fun i => (m.dma.ch i).highPriority) m.rrLast with
  | none => .ok (false, m)
  | some i =>
    let m := { m with rrLast := i }
    let k := m.burstLen B i
    if bursts ∧ burstMin ≤ (m.dma.ch i).remaining.toNat ∧ ready = [i] ∧ 1 < k then
      (m.burst B i k).map fun m => (true, m)
    else (m.transfer B i).map fun m => (true, m)

def step : Except Fault (Bool × Machine δ) := m.stepWith B (!B.noFast)

end Machine

end DmaCpu.Emu
