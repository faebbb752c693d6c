-- SUMMARY: The compact machine of `compact.go`, and the record interpreter it is meant to be.
import DmaCpu.Emu.Poke
import DmaCpu.Emu.Sequential
import DmaCpu.Lib.Fallible

/-!
# The compact machine

An instruction is a record of two words, a read and a write address. Fetch copies
it into the second alias row of one of seven bank channels, whose CTRL and count
stay as they are; the write address starts the bank. Which bank is current is
held in fetch's own write address, which an 8-byte ring keeps on the bank's
window. Plain and sniff chain back to fetch, the other banks to cleanup, which
returns to plain.
-/
namespace DmaCpu.Emu

namespace Compact

def plain : Nat := 0
def size8 : Nat := 1
def size8W : Nat := 2
def size8RW : Nat := 3
def sniff : Nat := 4
def bswap : Nat := 5
def size16 : Nat := 6
def fetch : Nat := 7
def cleanup : Nat := 8
def numBanks : Nat := 7

/-- `CompactAutoReturn`. -/
def autoReturn (ch : Nat) : Bool :=
  ch = size8 || ch = size8W || ch = size8RW || ch = bswap || ch = size16

/-- `CompactWindow`: where fetch puts a record for bank `ch`. -/
def window (ch : Nat) : Word := chanRegAddr ch offAl2ReadAddr

/-- `CompactBankCtrl`. -/
def bankCtrl (v : Variant) (ch : Nat) : Word :=
  let chain := if autoReturn ch then cleanup else fetch
  let base := ctrlEN ||| v.ctrlTreq treqPermanent ||| v.ctrlChainTo chain ||| v.ctrlIRQQuiet
  if ch = plain then base ||| ctrlSize32
  else if ch = size8 then base ||| ctrlSize8
  else if ch = size8W then base ||| ctrlSize8 ||| v.ctrlIncrWrite
  else if ch = size8RW then base ||| ctrlSize8 ||| ctrlIncrRead ||| v.ctrlIncrWrite
  else if ch = sniff then base ||| ctrlSize32 ||| v.ctrlSniffEn
  else if ch = bswap then base ||| ctrlSize32 ||| v.ctrlBswap
  else if ch = size16 then base ||| ctrlSize16
  else 0

/-- `CompactCleanupCtrl`. -/
def cleanupCtrl (v : Variant) : Word :=
  ctrlEN ||| ctrlSize32 ||| v.ctrlTreq treqPermanent ||| v.ctrlChainTo cleanup ||| v.ctrlIRQQuiet

/-- `CompactFetchCtrl`. -/
def fetchCtrl (v : Variant) : Word :=
  ctrlEN ||| ctrlSize32 ||| ctrlIncrRead ||| v.ctrlIncrWrite ||| v.ctrlRingSel ||| v.ctrlRingSize 3 |||
    v.ctrlTreq treqPermanent ||| v.ctrlChainTo fetch ||| v.ctrlIRQQuiet

/-- Fetch, and cleanup to return it to the plain window, whose address it finds in
    the literal at `lit`. -/
def front (v : Variant) (lit : Word) : Sequential.Front where
  fetch := fetch
  aux := cleanup
  ctrl := fetchCtrl v
  words := 2
  home := window plain
  scratch := lit

/-! ## Setup -/

/-- The init writes of a bank. -/
def bankWrites (v : Variant) (ch : Nat) : List (Word × Word) :=
  [(chanRegAddr ch offAl1Ctrl, bankCtrl v ch), (chanRegAddr ch offAl2TransCount, 1)]

/-- The init writes of a compact image: the banks, and cleanup. -/
def initWrites (v : Variant) (lit : Word) : List (Word × Word) :=
  (List.range numBanks).flatMap (bankWrites v) ++
    [(chanRegAddr cleanup offAl1ReadAddr, lit),
     (chanRegAddr cleanup offAl1WriteAddr, chanRegAddr fetch offAl2WriteAddrTrig),
     (chanRegAddr cleanup offAl2TransCount, 1),
     (chanRegAddr cleanup offAl1Ctrl, cleanupCtrl v)]

/-- The writes of `SetupFetchExec` for a compact image. -/
def fetchWrites (v : Variant) (entry : Word) : List (Word × Word) :=
  [(chanRegAddr fetch offReadAddr, entry),
   (chanRegAddr fetch offWriteAddr, window plain),
   (chanRegAddr fetch offTransCount, 2),
   (chanRegAddr fetch offCtrlTrig, fetchCtrl v)]

variable {δ : Type} (B : Board δ)

/-- `SetupFetchExec` for a compact image. -/
def setupFetchExec (m : Machine δ) (entry : Word) : Except SetupError (Machine δ) :=
  if entry.toNat % 8 ≠ 0 then .error .misaligned
  else m.pokes B (fetchWrites B.v entry)

/-! ## The interpreter -/

open Sequential (State Stop)

structure Record where
  read : Word
  write : Word
deriving DecidableEq

/-- A bank when it starts on a record. A count of zero is not loaded. -/
def Record.chan (r : Record) (v : Variant) (bank : Channel) : Channel :=
  let c : Channel := { bank with readAddr := r.read, writeAddr := r.write }
  if c.zeroLength v then c.latch v else c.launch v

/-- The bank a window belongs to. -/
def bankOf (w : Word) : Nat := ((List.range numBanks).find? fun ch => window ch = w).getD plain

/-- The record at the program counter. -/
def fetchRecord (S : State δ) : Except Fault (Record × State δ) := do
  let (read, S) ← S.fetchWord B
  let (write, S) ← S.fetchWord B
  return (⟨read, write⟩, S)

/-- The end of a record on bank `ch`, which leaves the bank's channel at `c`. An
    auto-return bank makes plain the current one. -/
def retire (lit : Word) (ch : Nat) (c : Channel) (S : State δ) : State δ :=
  let S : State δ := { S with regs := S.regs.setCh ch c.free }
  if autoReturn ch then S.rewound (front B.v lit) else S

/-- The sequential semantics: one record, on the current bank. -/
def exec (lit : Word) (S : State δ) : Except (Stop δ) (State δ) :=
  let ch := bankOf S.window
  match fetchRecord B S with
  | .error f => .error (.fault f)
  | .ok (r, S) =>
    if r.write = 0 then .error (.halt S)
    else
      let n := (B.v.transCount (S.regs.ch ch).reload).toNat
      let c := r.chan B.v (S.regs.ch ch)
      match S.transfer B (front B.v lit) ch n c with
      | .error f => .error (.fault f)
      | .ok S => .ok (retire B lit ch ((Sequential.step B.v)^[n] c) S)

/-- Where the interpreter begins on a machine that has just been set up. -/
def boot (entry : Word) (m : Machine δ) : State δ where
  pc := entry
  window := window plain
  mem := m.mem
  dev := m.dev
  cycle := m.cycle
  sniffCtrl := m.dma.sniffCtrl
  sniffData := m.dma.sniffData
  regs := m.core.dma

/-! ## Programs the machine runs -/

/-- A write address a record on bank `ch` may use: of the DMA registers the
    sniffer's, the program counter, the window and the counts of other banks, and
    not the literal. -/
structure Writable (lit : Word) (ch : Nat) (addr : Word) (w : Width) : Prop where
  dma : inDMA addr = true → (front B.v lit).target B.v ch (aliasOp addr).1 ∈
    [.sniffCtrl, .sniffData, .pc, .window] ++ (List.range numBanks).map .count
  literal : addr.toNat + w.bytes ≤ lit.toNat ∨ lit.toNat + 4 ≤ addr.toNat

/-- A record that moves something on bank `ch`, which stands at `bank`: the bank
    counts down once, from a count that is not zero unless it returns by itself,
    and writes where it may. -/
structure Record.Moves (lit : Word) (ch : Nat) (bank : Channel) (r : Record) : Prop where
  once : B.v.transMode bank.reload ≠ transModeTriggerSelf ∧
    B.v.transMode bank.reload ≠ transModeEndless
  nonzero : autoReturn ch = false → B.v.transCount bank.reload ≠ 0
  writes : ∀ j < (B.v.transCount bank.reload).toNat, ∀ w, ctrlDataSize bank.ctrl = some w →
    Writable B lit ch ((Sequential.step B.v)^[j] (r.chan B.v bank)).writeAddr w

/-- The window is a bank's, the record at the program counter lies in memory, and
    it stops the machine or moves something. -/
structure Good (lit : Word) (S : State δ) : Prop where
  bank : ∃ ch < numBanks, S.window = window ch
  pc : ∀ j < 2, inDMA (S.pc + BitVec.ofNat 32 (4 * j)) = false
  record : ∀ r S', fetchRecord B S = .ok (r, S') →
    r.write = 0 ∨ r.Moves B lit (bankOf S.window) (S.regs.ch (bankOf S.window))

variable {B} {lit : Word} {ch : Nat}

instance {addr : Word} {w : Width} : Decidable (Writable B lit ch addr w) :=
  decidable_of_iff (_ ∧ _) ⟨fun h => ⟨h.1, h.2⟩, fun h => ⟨h.1, h.2⟩⟩

instance {bank : Channel} {r : Record} : Decidable (r.Moves B lit ch bank) :=
  decidable_of_iff (_ ∧ _ ∧ ∀ j < (B.v.transCount bank.reload).toNat,
      ∀ w ∈ ctrlDataSize bank.ctrl,
        Writable B lit ch ((Sequential.step B.v)^[j] (r.chan B.v bank)).writeAddr w)
    ⟨fun h => ⟨h.1, h.2.1, h.2.2⟩, fun h => ⟨h.1, h.2, h.3⟩⟩

instance {S : State δ} : Decidable (Good B lit S) :=
  decidable_of_iff (_ ∧ _ ∧ ∀ x ∈ (fetchRecord B S).toOption,
      x.1.write = 0 ∨ x.1.Moves B lit (bankOf S.window) (S.regs.ch (bankOf S.window)))
    ⟨fun h => ⟨h.1, h.2.1, fun r S' hfetch => h.2.2 (r, S') (by rw [hfetch]; rfl)⟩,
      fun h => ⟨h.1, h.2, fun x hx => h.3 x.1 x.2 (Fallible.toOption_eq_some.mp hx)⟩⟩

end Compact

end DmaCpu.Emu
