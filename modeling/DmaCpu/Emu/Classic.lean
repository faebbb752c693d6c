-- SUMMARY: The classic fetch/execute machine of `fetchexec.go`, and the block interpreter it is meant to be.
import DmaCpu.Emu.Poke
import DmaCpu.Emu.Sequential
import DmaCpu.Lib.Fallible

/-!
# The classic machine

Three channels make a processor. Fetch copies a 16-byte block from the program
into the registers of exec, the last word of which starts it; exec does the
block's move and chains to fix; fix points fetch back at exec's registers and
starts it again.

The interpreter below is what this is for: a program counter, and one block after
another.
-/
namespace DmaCpu.Emu

structure FetchExecConfig where
  fetch : Nat
  exec : Nat
  fix : Nat
  entry : Word
  scratch : Word
deriving DecidableEq

namespace FetchExecConfig

variable (cfg : FetchExecConfig) (v : Variant)

/-- The CTRL word of program blocks. -/
def execCtrl : Word :=
  ctrlEN ||| ctrlSize32 ||| v.ctrlTreq treqPermanent ||| v.ctrlChainTo cfg.fix ||| v.ctrlIRQQuiet

def fixCtrl : Word :=
  ctrlEN ||| ctrlSize32 ||| v.ctrlTreq treqPermanent ||| v.ctrlChainTo cfg.fix ||| v.ctrlIRQQuiet

def fetchCtrl : Word :=
  ctrlEN ||| ctrlSize32 ||| ctrlIncrRead ||| v.ctrlIncrWrite ||| v.ctrlTreq treqPermanent |||
    v.ctrlChainTo cfg.fetch ||| v.ctrlIRQQuiet

def execRegs : Word := chanRegAddr cfg.exec 0

/-- Fetch, and fix to rewind it. -/
def front : Sequential.Front where
  fetch := cfg.fetch
  aux := cfg.fix
  ctrl := cfg.fetchCtrl v
  words := 4
  home := cfg.execRegs
  scratch := cfg.scratch

end FetchExecConfig

section
variable {δ : Type} (B : Board δ)

/-- The writes of `SetupFetchExec`, in order. -/
def FetchExecConfig.writes (cfg : FetchExecConfig) (v : Variant) : List (Word × Word) :=
  [(cfg.scratch, cfg.execRegs),
   (chanRegAddr cfg.fix offAl1ReadAddr, cfg.scratch),
   (chanRegAddr cfg.fix offAl1WriteAddr, chanRegAddr cfg.fetch offAl2WriteAddrTrig),
   (chanRegAddr cfg.fix offAl2TransCount, 1),
   (chanRegAddr cfg.fix offAl1Ctrl, cfg.fixCtrl v),
   (chanRegAddr cfg.fetch offReadAddr, cfg.entry),
   (chanRegAddr cfg.fetch offWriteAddr, cfg.execRegs),
   (chanRegAddr cfg.fetch offTransCount, 4),
   (chanRegAddr cfg.fetch offCtrlTrig, cfg.fetchCtrl v)]

/-- `SetupFetchExec`. -/
def setupFetchExec (m : Machine δ) (cfg : FetchExecConfig) : Except SetupError (Machine δ) :=
  if cfg.fetch = cfg.exec ∨ cfg.exec = cfg.fix ∨ cfg.fetch = cfg.fix then .error .sameChannel
  else if B.v.nChannels ≤ cfg.fetch ∨ B.v.nChannels ≤ cfg.exec ∨ B.v.nChannels ≤ cfg.fix then
    .error .outOfRange
  else if cfg.entry.toNat % 16 ≠ 0 then .error .misaligned
  else m.pokes B (cfg.writes B.v)

end

/-! ## The interpreter -/

namespace Classic

open Sequential (State Stop)

structure Block where
  read : Word
  write : Word
  count : Word
  ctrl : Word
deriving DecidableEq

/-- The exec channel when it starts on a block. -/
def Block.chan (b : Block) (v : Variant) : Channel where
  readAddr := b.read
  writeAddr := b.write
  ctrl := b.ctrl &&& ~~~v.ctrlBusy
  reload := b.count
  remaining := v.transCount b.count
  mode := v.transMode b.count
  busy := true

variable {δ : Type} (B : Board δ) (cfg : FetchExecConfig)

/-- The block at the program counter. Fetch's write address has then passed the
    four registers. -/
def fetchBlock (S : State δ) : Except Fault (Block × State δ) := do
  let (read, S) ← S.fetchWord B
  let (write, S) ← S.fetchWord B
  let (count, S) ← S.fetchWord B
  let (ctrl, S) ← S.fetchWord B
  return (⟨read, write, count, ctrl⟩, { S with window := cfg.execRegs + 16 })

/-- The sequential semantics: one block. -/
def exec (S : State δ) : Except (Stop δ) (State δ) :=
  match fetchBlock B cfg S with
  | .error f => .error (.fault f)
  | .ok (b, S) =>
    if b.ctrl = 0 then .error (.halt S)
    else
      match S.transfer B (cfg.front B.v) cfg.exec (B.v.transCount b.count).toNat (b.chan B.v) with
      | .error f => .error (.fault f)
      | .ok S => .ok ((S.signalled B.v cfg.exec (b.chan B.v)).rewound (cfg.front B.v))

/-- Where the interpreter begins on a machine that has just been set up. -/
def boot (m : Machine δ) : State δ where
  pc := cfg.entry
  window := cfg.execRegs
  mem := m.mem
  dev := m.dev
  cycle := m.cycle
  sniffCtrl := m.dma.sniffCtrl
  sniffData := m.dma.sniffData
  regs := m.core.dma

/-! ## Programs the machine runs -/

/-- A write address a block may use: of the DMA registers only the sniffer's and
    the program counter, and not the scratch word. -/
structure Writable (addr : Word) (w : Width) : Prop where
  dma : inDMA addr = true → (cfg.front B.v).target B.v cfg.exec (aliasOp addr).1 = .sniffCtrl ∨
    (cfg.front B.v).target B.v cfg.exec (aliasOp addr).1 = .sniffData ∨
    (cfg.front B.v).target B.v cfg.exec (aliasOp addr).1 = .pc
  scratch : addr.toNat + w.bytes ≤ cfg.scratch.toNat ∨ cfg.scratch.toNat + 4 ≤ addr.toNat

/-- A block that moves something: enabled, unpaced, chained to fix, counting
    down once, and writing where it may. -/
structure Block.Moves (b : Block) : Prop where
  enabled : (b.chan B.v).enabled = true
  unpaced : (b.chan B.v).treq B.v = treqPermanent
  chained : (b.chan B.v).chainTo B.v = cfg.fix
  once : B.v.transMode b.count ≠ transModeTriggerSelf ∧ B.v.transMode b.count ≠ transModeEndless
  writes : ∀ j < (B.v.transCount b.count).toNat, ∀ w, ctrlDataSize (b.chan B.v).ctrl = some w →
    Writable B cfg ((Sequential.step B.v)^[j] (b.chan B.v)).writeAddr w

/-- The block at the program counter lies in memory, and stops the machine or
    moves something. -/
structure Good (S : State δ) : Prop where
  pc : ∀ j < 4, inDMA (S.pc + BitVec.ofNat 32 (4 * j)) = false
  block : ∀ b S', fetchBlock B cfg S = .ok (b, S') → b.ctrl = 0 ∨ b.Moves B cfg

variable {B cfg}

instance {addr : Word} {w : Width} : Decidable (Writable B cfg addr w) :=
  decidable_of_iff (_ ∧ _) ⟨fun h => ⟨h.1, h.2⟩, fun h => ⟨h.1, h.2⟩⟩

instance {b : Block} : Decidable (b.Moves B cfg) :=
  decidable_of_iff (_ ∧ _ ∧ _ ∧ _ ∧ ∀ j < (B.v.transCount b.count).toNat,
      ∀ w ∈ ctrlDataSize (b.chan B.v).ctrl,
        Writable B cfg ((Sequential.step B.v)^[j] (b.chan B.v)).writeAddr w)
    ⟨fun h => ⟨h.1, h.2.1, h.2.2.1, h.2.2.2.1, h.2.2.2.2⟩, fun h => ⟨h.1, h.2, h.3, h.4, h.5⟩⟩

instance {S : State δ} : Decidable (Good B cfg S) :=
  decidable_of_iff (_ ∧ ∀ x ∈ (fetchBlock B cfg S).toOption, x.1.ctrl = 0 ∨ x.1.Moves B cfg)
    ⟨fun h => ⟨h.1, fun b S' hfetch => h.2 (b, S') (by rw [hfetch]; rfl)⟩,
      fun h => ⟨h.1, fun x hx => h.2 x.1 x.2 (Fallible.toOption_eq_some.mp hx)⟩⟩

end Classic

end DmaCpu.Emu
