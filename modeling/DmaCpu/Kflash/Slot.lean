-- SUMMARY: The flash slot of the RAM disk: boot staging, block writes and the sync, `kflash.c` and `kbio.c`.
import DmaCpu.Lib.Bytes
import DmaCpu.Lib.Nor

/-!
# The flash slot

The slot is a header sector followed by the disk image. The firmware stages the
image at boot when the header and the checksum are right, and the golden disk
otherwise; the kernel looks at the header once more, without the checksum, and from
then on burns only the sectors that it has written itself. Addresses are in words
and relative to the slot.
-/
namespace DmaCpu.Kflash

open Nor (Flash Op)

/-- `FLASH_SECTOR`, `FLASH_PAGE` and `BSIZE`, in words. -/
def sectorWords : Nat := 1024
def pageWords : Nat := 64
def blockWords : Nat := 256

/-- `FS_MAGIC`. -/
def fsMagic : Word := 0x32464D44

/-- `KFLASH_NOEXEC`. -/
def kflashNoexec : Word := 1

/-- What the loader has patched in, and the disk that the build comes with. -/
structure Config where
  fsslot : Word
  kflashArm : Word
  /-- `dma_disksize`, in bytes. -/
  diskSize : Word
  goldsum : Word
  golden : Nat → Word

structure State where
  flash : Flash 32
  /-- The RAM disk. -/
  disk : Nat → Word
  /-- `fs_dirty`. -/
  dirty : Word
  /-- `fs_gen`. -/
  gen : Word

namespace Config

variable (c : Config)

/-- The size of the disk in words and in sectors. -/
def words : Nat := (c.diskSize / 4).toNat
def nsect : Nat := (c.diskSize / 4096).toNat

/-- The part of a memory that the disk takes up. -/
def contents (d : Nat → Word) : List Word := (List.range c.words).map d

/-- `disk_checksum`. -/
def checksum (d : Nat → Word) : Word := (List.range c.words).foldl (fun sum i => sum + d i) 0

end Config

/-- The disk image in the slot. -/
def image (f : Flash 32) : Nat → Word := fun i => f (sectorWords + i)

/-! ## Boot -/

/-- The disk that the firmware takes from the slot, if it does. -/
def stage (c : Config) (f : Flash 32) : Option (List Word) :=
  if c.fsslot = 0 then none
  else if f 0 = fsMagic ∧ f 2 = c.diskSize ∧ f 4 = c.goldsum then
    if c.checksum (image f) = f 3 then some (c.contents (image f)) else none
  else none

/-- `kflash_slot_gen`. -/
def slotGen (c : Config) (f : Flash 32) : Word :=
  if c.fsslot = 0 then 0
  else if f 0 ≠ fsMagic ∨ f 2 ≠ c.diskSize ∨ f 4 ≠ c.goldsum then 0
  else f 1

/-- The RAM disk that the kernel starts with. -/
def staged (c : Config) (f : Flash 32) : Nat → Word :=
  match stage c f with
  | some img => fun i => img.getD i 0
  | none => c.golden

/-- Staging, then `kflash_init`. -/
def boot (c : Config) (f : Flash 32) : State where
  flash := f
  disk := staged c f
  dirty := 0
  gen := slotGen c f

/-! ## Block writes -/

/-- `bread` finds the block on the disk. -/
def bread (c : Config) (blockno : Word) : Bool := !decide (c.diskSize < (blockno + 1) * 1024)

/-- The bit that `log_write` sets. -/
def dirtyBit (blockno : Word) : Word := (1 : Word) <<< (blockno * 1024 / 4096).toNat

/-- A buffer is a pointer into the RAM disk: its words change in place, and
    `log_write` follows. -/
def writeBlock (s : State) (blockno : Word) (data : Nat → Word) : State :=
  let a := (blockno * 1024).toNat / 4
  { s with
    disk := fun i => if a ≤ i ∧ i < a + blockWords then data (i - a) else s.disk i
    dirty := s.dirty ||| dirtyBit blockno }

/-! ## Sync -/

/-- `flash_write_sector`, for sector `i` of the disk. -/
def flashWriteSector (d : Nat → Word) (i : Nat) : List (Op 32) :=
  .erase (sectorWords + sectorWords * i) sectorWords ::
    Nor.pages (sectorWords + sectorWords * i) pageWords 16 fun j => d (sectorWords * i + j)

/-- The slot is to be burnt whole. -/
def full (c : Config) (s : State) : Bool := decide (slotGen c s.flash ≠ s.gen ∨ s.gen = 0)

/-- The header page. -/
def header (c : Config) (s : State) : Nat → Word
  | 0 => fsMagic
  | 1 => s.gen + 1
  | 2 => c.diskSize
  | 3 => c.checksum s.disk
  | 4 => c.goldsum
  | _ => 0xFFFFFFFF

/-- The sectors that a sync burns. -/
def burnt (c : Config) (s : State) : List Nat :=
  (List.range c.nsect).filter fun i => full c s || s.dirty &&& ((1 : Word) <<< i) != 0

/-- The flash operations of a sync. -/
def burn (c : Config) (s : State) : List (Op 32) :=
  .erase 0 sectorWords :: (burnt c s).flatMap (flashWriteSector s.disk) ++
    [.program 0 pageWords (header c s)]

/-- The way a sync takes. -/
inductive Path where
  | noDevice
  | notConfigured
  | nothingChanged
  | burns
deriving DecidableEq, Repr

def path (c : Config) (s : State) : Path :=
  if c.kflashArm = kflashNoexec then .noDevice
  else if c.fsslot = 0 then .notConfigured
  else if ¬full c s ∧ s.dirty = 0 then .nothingChanged
  else .burns

/-- `kflash_sync`: what it returns and what it leaves. -/
def sync (c : Config) (s : State) : Int × State :=
  match path c s with
  | .noDevice => (-19, s)
  | .notConfigured => (-1, s)
  | .nothingChanged => (0, s)
  | .burns => (0, { s with flash := Nor.run (burn c s) s.flash, dirty := 0, gen := s.gen + 1 })

end DmaCpu.Kflash
