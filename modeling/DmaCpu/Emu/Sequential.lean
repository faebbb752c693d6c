-- SUMMARY: What a machine built of DMA channels does with one instruction, seen as sequential code.
import DmaCpu.Emu.Core

/-!
# Sequential processors

In both machines of the source a fetch channel copies an instruction into the
registers of a channel that then runs it, and a third channel, fix or cleanup,
can rewind fetch's write address and start it again. This is the sequential view
they share: a program counter, a window into which fetch writes, memory, the
sniffer, and the transfer of one instruction, datum after datum. It knows nothing
of triggers and chains. It shares with the machine the bus and the decoding of
CTRL words.
-/
namespace DmaCpu.Emu.Sequential

/-- The fixed part of such a processor. -/
structure Front where
  fetch : Nat
  /-- The channel that rewinds fetch. -/
  aux : Nat
  ctrl : Word
  words : Word
  /-- What `aux` writes to fetch's write address, and where it reads it. -/
  home : Word
  scratch : Word

/-- The processor between two instructions. Apart from the sniffer and fetch,
    `regs` holds what an instruction finds in the DMA registers. -/
structure State (δ : Type) where
  pc : Word
  window : Word
  mem : Mem
  dev : δ
  cycle : Nat
  sniffCtrl : Word
  sniffData : Word
  regs : Dma

inductive Stop (δ : Type) where
  | halt (S : State δ)
  | fault (f : Fault)

/-- What a register is to the instruction that writes it. -/
inductive Target where
  | sniffCtrl
  | sniffData
  | pc
  | window
  | count (j : Nat)
  | other
deriving DecidableEq, Repr

/-- The channel one datum later. -/
def step (v : Variant) (c : Channel) : Channel :=
  { Dma.advance v c with remaining := c.remaining - 1 }

namespace Front

variable (F : Front) (v : Variant)

/-- The fetch channel at address `pc`, `left` words before the end. -/
def chan (pc write left : Word) (busy : Bool) : Channel where
  readAddr := pc
  writeAddr := write
  ctrl := F.ctrl
  reload := F.words
  remaining := left
  busy := busy

def auxCtrl : Word :=
  ctrlEN ||| ctrlSize32 ||| v.ctrlTreq treqPermanent ||| v.ctrlChainTo F.aux ||| v.ctrlIRQQuiet

/-- The register at offset `norm`, for an instruction on channel `i`. Registers
    that trigger are none of its business. -/
def target (i norm : Nat) : Target :=
  let j := norm / chanStride
  if norm = v.offSniffCtrl then .sniffCtrl
  else if norm = v.offSniffData then .sniffData
  else if norm < v.nChannels * chanStride ∧ Dma.isTrig (norm % chanStride) = false then
    match Dma.regOf (norm % chanStride) with
    | some .readAddr => if j = F.fetch then .pc else .other
    | some .writeAddr => if j = F.fetch then .window else .other
    | some .transCount => if j = F.fetch ∨ j = i then .other else .count j
    | _ => .other
  else .other

end Front

namespace State

variable {δ : Type} (B : Board δ) (F : Front) (i : Nat) (S : State δ)

/-- Fetch at rest. -/
def rest : Channel := F.chan S.pc S.window 0 false

/-- The register block with the fetch channel at `f` and channel `i` at `e`. -/
def dma (f e : Channel) : Dma :=
  ((S.regs.withSniff S.sniffCtrl S.sniffData).setCh F.fetch f).setCh i e

/-- A write to a register. -/
def putReg (t : Target) (val : Word) (op : Nat) : State δ :=
  match t with
  | .sniffCtrl => { S with sniffCtrl := applyAlias S.sniffCtrl val op }
  | .sniffData =>
    { S with sniffData := applyAlias (Dma.sniffShown S.sniffCtrl S.sniffData) val op }
  | .pc => { S with pc := applyAlias S.pc val op }
  | .window => { S with window := applyAlias S.window val op }
  | .count j =>
    let c := S.regs.ch j
    { S with regs := S.regs.setCh j { c with reload := applyAlias c.remaining val op } }
  | .other => S

/-- A write by the instruction on channel `i`. -/
def put (addr val : Word) (w : Width) : Except Fault (State δ) :=
  if addr.toNat % w.bytes ≠ 0 then .error (.unaligned addr)
  else if inDMA addr then
    .ok (S.putReg (F.target B.v i (aliasOp addr).1) val (aliasOp addr).2)
  else
    (busWrite B S.mem S.dev S.cycle addr val w).map fun r => { S with mem := r.1, dev := r.2 }

def sniff (datum : Word) (w : Width) : State δ :=
  if S.sniffCtrl &&& sniffCtrlEN = 0 ∨ sniffDmach S.sniffCtrl ≠ i then S
  else { S with sniffData := Dma.sniffed S.sniffCtrl S.sniffData datum w }

/-- One datum of an instruction, with the pointers of channel `c`. -/
def datum (c : Channel) : Except Fault (State δ) :=
  match ctrlDataSize c.ctrl with
  | none => .error (.reservedSize i)
  | some w =>
    (busRead B ((S.dma F i (S.rest F) c).regRead B.v) S.mem S.dev (S.cycle + 1) c.readAddr w).bind
      fun r =>
        let x := c.swap B.v r.1 w
        (({ S with dev := r.2, cycle := S.cycle + 1 } : State δ).put B F i c.writeAddr x w).map
          fun S => if c.sniffEn B.v then S.sniff i x w else S

/-- The transfer of an instruction: `n` data. -/
def transfer : Nat → Channel → State δ → Except Fault (State δ)
  | 0, _, S => .ok S
  | n + 1, c, S => (S.datum B F i c).bind (transfer n (step B.v c))

/-- Read the word at the program counter and step over it. -/
def fetchWord : Except Fault (Word × State δ) :=
  (busRead B (fun _ => 0) S.mem S.dev (S.cycle + 1) S.pc .word).map fun r =>
    (r.1, { S with pc := S.pc + 4, dev := r.2, cycle := S.cycle + 1 })

/-- The instruction of a channel at `e` is over: its interrupt unless it is quiet. -/
def signalled (v : Variant) (i : Nat) (e : Channel) (S : State δ) : State δ :=
  if e.irqQuiet v then S else { S with regs := S.regs.raise i }

/-- The cycle in which `aux` has its turn. -/
def rewound : State δ :=
  { S with
    window := F.home
    regs := S.regs.setCh F.aux { S.regs.ch F.aux with remaining := 0, mode := 0 }
    cycle := S.cycle + 1 }

end State

end DmaCpu.Emu.Sequential
