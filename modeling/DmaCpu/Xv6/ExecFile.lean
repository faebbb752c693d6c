-- SUMMARY: How `SYS_exec` reads an executable file into the arena and relocates it, by address.
import DmaCpu.Dmx.ExecFile
import DmaCpu.Lib.Blit
import DmaCpu.Xv6.Syscall

/-!
# Executable files

`sysExec` says what becomes of the kernel; here is what becomes of the memory. The
file is read through `readi`, first the header, then text and data into their blocks,
then the relocations in chunks of 64. Memory is flat. A word goes over the bus in one
transfer, which faults unless its address is aligned: the machine then stops.
-/
namespace DmaCpu.Xv6

/-- The memory of the machine, by address. -/
abbrev Memory := Blit.Mem 32 Byte

namespace Memory

/-- The word at an address. -/
def ld (m : Memory) (a : Word) : Word := m (a + 3) ++ m (a + 2) ++ m (a + 1) ++ m a

/-- `W(a) = v`. -/
def st (m : Memory) (a v : Word) : Option Memory :=
  if a % 4 = 0 then some (Blit.blit m a 4 fun i => v.extractLsb' (8 * i) 8) else none

/-- Bytes that a read delivers. -/
def put (m : Memory) (a : Word) (bs : List Byte) : Memory := Blit.blit m a bs.length fun i => bs.getD i 0

end Memory

namespace Exec

/-- `readi`: the bytes of a file that a read delivers. -/
def readi (file : List Byte) (off n : Word) : List Byte :=
  let size := BitVec.ofNat 32 file.length
  if size < off ∨ off + n < off then []
  else if size < off + n then Dmx.slice file off.toNat (size - off).toNat
  else Dmx.slice file off.toNat n.toNat

/-- `struct kimg`, as far as the header of a file fills it. -/
structure Kimg where
  textlen : Word
  datalen : Word
  textlink : Word
  datalink : Word
  nreloc : Word
  entryoff : Word
  thunkoff : Word
  dispoff : Word
  irqoff : Word
  lroff : Word
  mailoff : Word
  sysoff : Word
deriving DecidableEq, Repr

def Kimg.ofHeader (hdr : Nat → Word) : Kimg :=
  ⟨hdr 1, hdr 2, hdr 3, hdr 4, hdr 5, hdr 6, hdr 7, hdr 8, hdr 9, hdr 10, hdr 11, hdr 12⟩

/-- The header of a file that has one. -/
def readHeader (file : List Byte) : Option Kimg :=
  let hdr := readi file 0 52
  if hdr.length ≠ 52 ∨ Dmx.le32 hdr 0 ≠ Dmx.execMagic then none
  else some (Kimg.ofHeader fun i => Dmx.le32 hdr (4 * i))

/-! ## Relocation -/

section

variable (im : Kimg) (tb db : Word)

/-- The address that a relocation word names. -/
def target (r : Word) : Word := (if r &&& 0x80000000 ≠ 0 then db else tb) + (r &&& 0x3FFFFFFF)

/-- The displacement that it asks for. -/
def delta (r : Word) : Word :=
  if r &&& 0x40000000 ≠ 0 then db - im.datalink else tb - im.textlink

def patch (m : Memory) (r : Word) : Option Memory :=
  m.st (target tb db r) (m.ld (target tb db r) + delta im tb db r)

/-- The words of a chunk. -/
def words (bs : List Byte) (n : Nat) : List Word := (List.range n).map fun i => Dmx.le32 bs (4 * i)

/-- The loop over the relocations. A short read ends it. -/
def relocLoop (file : List Byte) : Nat → Word → Word → Memory → Option Memory
  | 0, _, _, m => some m
  | fuel + 1, left, off, m =>
    if left = 0 then some m
    else
      let take := if 64 < left then 64 else left
      let rw := readi file off (take * 4)
      if rw.length ≠ (take * 4).toNat then some m
      else
        ((words rw take.toNat).foldlM (patch im tb db) m).bind
          (relocLoop file fuel (left - take) (off + take * 4))

end

/-! ## Loading -/

/-- What becomes of the memory. -/
inductive Loaded where
  /-- A segment is not there in full. -/
  | short (m : Memory)
  | fault
  | done (m : Memory)

/-- Read text and data into the blocks at `tb` and `db`, and relocate them. -/
def loadFile (file : List Byte) (im : Kimg) (tb db : Word) (m : Memory) : Loaded :=
  let toff : Word := 52
  let doff := toff + im.textlen
  let roff := doff + im.datalen
  let text := readi file toff im.textlen
  let m := m.put tb text
  if text.length ≠ im.textlen.toNat then .short m
  else
    let data := readi file doff im.datalen
    let m := m.put db data
    if data.length ≠ im.datalen.toNat then .short m
    else
      match relocLoop im tb db file im.nreloc.toNat im.nreloc roff m with
      | none => .fault
      | some m => .done m

/-- Where the kernel finds its way about an image. -/
structure Landmarks where
  start : Word
  thunk : Word
  pdispatch : Word
  pirqresume : Word
  plr : Word
  pmail : Word
deriving DecidableEq, Repr

def landmarks (im : Kimg) (tb db : Word) : Landmarks where
  start := tb + im.entryoff
  thunk := tb + im.thunkoff
  pdispatch := db + im.dispoff
  pirqresume := db + im.irqoff
  plr := db + im.lroff
  pmail := db + im.mailoff

/-! ## Arguments -/

/-- `while (*s && sp < lim) *sp++ = *s++; *sp++ = 0;`, and where `sp` is then. -/
def copyArg (lim : Word) : Nat → Word → Word → Memory → Memory × Word
  | 0, _, sp, m => (Function.update m sp 0, sp + 1)
  | fuel + 1, s, sp, m =>
    if m s ≠ 0 ∧ sp < lim then copyArg lim fuel (s + 1) (sp + 1) (Function.update m sp (m s))
    else (Function.update m sp 0, sp + 1)

/-- `while (argc < 15 && av[argc])`, the first argument being `15 - argc`. -/
def copyArgs (av area : Word) : Nat → Nat → Word → Memory → Option (Memory × Nat)
  | 0, argc, _, m => some (m, argc)
  | rest + 1, argc, sp, m =>
    let s := m.ld (av + BitVec.ofNat 32 (4 * argc))
    if s = 0 then some (m, argc)
    else
      (m.st (area + BitVec.ofNat 32 (4 * argc)) sp).bind fun m =>
        let (m, sp) := copyArg (area + 256 - 1) 256 s sp m
        copyArgs av area rest (argc + 1) sp m

/-- Fill the argument area, if there is one: `argc` and `argv` of the new image. -/
def passArgs (m : Memory) (av area : Word) : Option (Memory × Word × Word) :=
  if area = 0 then some (m, 0, 0)
  else if av % 4 ≠ 0 then none
  else
    (copyArgs av area 15 0 (area + 64) m).bind fun (m, argc) =>
      (m.st (area + BitVec.ofNat 32 (4 * argc)) 0).map fun m => (m, BitVec.ofNat 32 argc, area)

/-- The words that the kernel presets in the image. The `.regs` bank sits 0x54 below
    `dispatch`. -/
def preset (im : Kimg) (tb db sysentry argc argv : Word) (m : Memory) : Option Memory := do
  let m ← m.st (db + im.sysoff) sysentry
  let m ← m.st (db + im.dispoff) (tb + im.thunkoff)
  let regs := db + im.dispoff - 0x54
  let m ← m.st regs argc
  m.st (regs + 4) argv

/-! ## SYS_exec -/

/-- How `SYS_exec` of a file ends. -/
inductive ExecEnd where
  /-- The call returns -1. -/
  | refused (k : Kernel) (m : Memory)
  /-- The caller goes on in the new image. -/
  | started (k : Kernel) (m : Memory) (l : Landmarks)
  | fault

/-- `SYS_exec` with a file at the path, up to the return to the image. -/
def execFile (k : Kernel) (m : Memory) (file : List Byte) (argv sysentry : Word) : ExecEnd :=
  match readHeader file with
  | none => .refused k m
  | some im =>
    let (k, tb) := k.kalloc im.textlen
    let (k, db) := k.kalloc im.datalen
    if tb = 0 ∨ db = 0 then .refused ((k.kfree tb).kfree db) m
    else
      match loadFile file im tb db m with
      | .short m => .refused ((k.kfree tb).kfree db) m
      | .fault => .fault
      | .done m =>
        let k := k.replaceImage k.curr tb db argv
        match (passArgs m argv (k.execmem k.curr .args)).bind fun (m, argc, argvdst) =>
            preset im tb db sysentry argc argvdst m with
        | none => .fault
        | some m => .started k m (landmarks im tb db)

end Exec

end DmaCpu.Xv6
