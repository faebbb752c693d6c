-- SUMMARY: A mounted FAT volume, on the memory bus or on a card, and the readers of `kfat.c` beneath the file reads.
import DmaCpu.Lib.Bytes
import DmaCpu.Lib.Blit

/-!
# FAT volumes

A volume is read through 32-bit addresses that start at its base. On the memory bus
an address is dereferenced; on a card it is turned into a sector number, and the
sector is read through a cache of two. What the volume holds is said in offsets that
do not wrap.
-/
namespace DmaCpu.Fat

abbrev Byte := BitVec 8

/-- `SDBASE`. -/
def sdbase : Word := 0x08000000

/-- A mounted volume: where it is, and the numbers of its boot sector. -/
structure Volume where
  /-- `fat_sd`. -/
  sd : Bool
  /-- The address of the volume on the memory bus. -/
  xip : Word
  sdpart : Word
  spc : Word
  rsvd : Word
  nfats : Word
  fatsz : Word
  /-- The size in sectors; the code does not look at it. -/
  total : Nat
  /-- The bytes of the card, or of the memory bus. -/
  media : Nat → Byte

namespace Volume

variable (v : Volume)

def fbase : Word := if v.sd then sdbase else v.xip
def clussz : Word := 512 * v.spc
def fatoff : Word := v.rsvd * 512
def dataoff : Word := (v.rsvd + v.nfats * v.fatsz) * 512

/-! ## What the volume holds -/

/-- The bytes of a cluster. -/
def cluster : Nat := 512 * v.spc.toNat

/-- Where the FAT and the data start. -/
def fatStart : Nat := 512 * v.rsvd.toNat
def dataStart : Nat := 512 * (v.rsvd.toNat + v.nfats.toNat * v.fatsz.toNat)

/-- Where the volume starts on its medium. -/
def origin : Nat := if v.sd then 512 * v.sdpart.toNat else v.xip.toNat

/-- The byte at an offset. -/
def byte (x : Nat) : Byte := v.media (v.origin + x)

/-- The FAT entry of a cluster. -/
def entry (cl : Word) : Word :=
  let a := v.fatStart + 4 * cl.toNat
  (v.byte (a + 3) ++ v.byte (a + 2) ++ v.byte (a + 1) ++ v.byte a : Word) &&& 0x0FFFFFFF

/-- The clusters of a chain. -/
def chain (cl : Word) : Nat → Word
  | 0 => cl
  | k + 1 => v.entry (chain cl k)

/-- Where a byte of a cluster is. -/
def clusterOffset (cl : Word) (pos : Nat) : Nat := v.dataStart + (cl.toNat - 2) * v.cluster + pos

/-- Where byte `p` of the file is that starts at cluster `cl`. -/
def fileOffset (cl : Word) (p : Nat) : Nat :=
  v.clusterOffset (v.chain cl (p / v.cluster)) (p % v.cluster)

end Volume

/-- The test that ends a chain walk. -/
def live (cl : Word) : Prop := 2 ≤ cl ∧ cl < 0x0FFFFFF8

instance (cl : Word) : Decidable (live cl) := inferInstanceAs (Decidable (_ ∧ _))

/-! ## The card -/

/-- The sector cache: `sdtag` holds the sector number plus one, zero when empty. -/
structure Cache where
  tag : Nat → Word
  data : Nat → Nat → Byte
  vict : Nat

/-- `NSDCACHE`. -/
def nsdcache : Nat := 2

def Cache.empty : Cache where
  tag := fun _ => 0
  data := fun _ _ => 0
  vict := 0

/-- A sector, as the card returns it. -/
def Volume.sector (v : Volume) (lba : Word) : Nat → Byte := fun j => v.media (512 * lba.toNat + j)

/-- `sdsec`. -/
def sdsec (v : Volume) (lba : Word) : StateM Cache (Nat → Byte) := fun c =>
  let tag := lba + 1
  match (List.range nsdcache).find? fun i => c.tag i == tag with
  | some i => (c.data i, c)
  | none =>
    (v.sector lba,
      { tag := fun i => if i = c.vict then tag else c.tag i
        data := fun i => if i = c.vict then v.sector lba else c.data i
        vict := (c.vict + 1) % nsdcache })

def rd8 (v : Volume) (a : Word) : StateM Cache Word :=
  if v.sd then do
    let off := a - sdbase
    let s ← sdsec v (v.sdpart + (off >>> 9))
    return (s (off &&& 511).toNat).setWidth 32
  else return (v.media a.toNat).setWidth 32

def rd16 (v : Volume) (a : Word) : StateM Cache Word := do
  let lo ← rd8 v a
  let hi ← rd8 v (a + 1)
  return lo ||| hi <<< 8

def rd32 (v : Volume) (a : Word) : StateM Cache Word := do
  let lo ← rd16 v a
  let hi ← rd16 v (a + 2)
  return lo ||| hi <<< 16

/-- `fat_next`. -/
def fatNext (v : Volume) (cl : Word) : StateM Cache Word := do
  let e ← rd32 v (v.fbase + v.fatoff + cl * 4)
  return e &&& 0x0FFFFFFF

def clusaddr (v : Volume) (cl : Word) : Word := v.fbase + v.dataoff + (cl - 2) * v.clussz

end DmaCpu.Fat
