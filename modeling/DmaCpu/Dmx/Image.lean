-- SUMMARY: DMX images and the host's reader and validator for them, `img.go`.
import DmaCpu.Lib.Bytes

/-!
# DMX images

An image is a list of segments, a list of relocations, a list of init writes and
an entry point. `decode` reads one from a byte string with a reader whose first
failure sticks, and `validate` checks what was read. An error keeps the data of
its message.
-/
namespace DmaCpu.Dmx

abbrev Byte := BitVec 8

/-- `"DMX1"`, little-endian. -/
def magic : Word := 0x31584D44

/-- Marks a write value as absolute. -/
def refAbs : Word := 0xFFFFFFFF

/-- A contiguous byte range linked at `linkAddr`. -/
structure Segment where
  linkAddr : Word
  data : List Byte
deriving DecidableEq, Repr

/-- Rebases the word at `seg:off` by the displacement of segment `ref`. -/
structure Reloc where
  seg : Word
  off : Word
  ref : Word
deriving DecidableEq, Repr

/-- An init write; unless `ref` is `refAbs` the value is rebased by that segment. -/
structure Write where
  addr : Word
  value : Word
  ref : Word
deriving DecidableEq, Repr

structure Image where
  segments : List Segment
  relocs : List Reloc
  writes : List Write
  entrySeg : Word
  entryOff : Word
deriving DecidableEq, Repr

inductive FormatError where
  | magic
  | flags (flags : Word)
  | tableSizes (nSeg nRel nWr : Word)
  | truncated (need pos : Nat)
  | trailing (n : Nat)
  | segSize (i n : Nat)
  | segLink (i : Nat) (addr : Word)
  | relocSegment (i : Nat)
  | relocOffset (i : Nat) (off : Word)
  | writeSegment (i : Nat)
  | writeAddr (i : Nat) (addr : Word)
  | entrySegment
  | entryOffset (off : Word)
deriving DecidableEq, Repr

/-- The word at a position, least significant byte first. -/
def le32 (b : List Byte) (pos : Nat) : Word :=
  b.getD (pos + 3) 0 ++ b.getD (pos + 2) 0 ++ b.getD (pos + 1) 0 ++ b.getD pos 0

/-- Words as `AppendUint32` lays them out. -/
def leBytes (ws : List Word) : List Byte :=
  ws.flatMap fun w =>
    [w.extractLsb' 0 8, w.extractLsb' 8 8, w.extractLsb' 16 8, w.extractLsb' 24 8]

/-! ## Validation -/

/-- A check of every element with its index, in order. -/
def checkAll {α : Type} (check : Nat → α → Except FormatError Unit) :
    Nat → List α → Except FormatError Unit
  | _, [] => .ok ()
  | i, a :: as => (check i a).bind fun _ => checkAll check (i + 1) as

namespace Image

variable (im : Image)

/-- `uint32(len(im.Segments))`. -/
def nSeg : Word := BitVec.ofNat 32 im.segments.length

/-- The size of a segment's data, as a word. -/
def sizeOf (i : Word) : Word :=
  BitVec.ofNat 32 ((im.segments[i.toNat]?).elim 0 fun s => s.data.length)

def checkSegment (i : Nat) (s : Segment) : Except FormatError Unit :=
  if s.data.length % 4 ≠ 0 then .error (.segSize i s.data.length)
  else if s.linkAddr % 4 ≠ 0 then .error (.segLink i s.linkAddr)
  else .ok ()

def checkReloc (i : Nat) (r : Reloc) : Except FormatError Unit :=
  if im.nSeg ≤ r.seg ∨ im.nSeg ≤ r.ref then .error (.relocSegment i)
  else if r.off % 4 ≠ 0 ∨ im.sizeOf r.seg < r.off + 4 then .error (.relocOffset i r.off)
  else .ok ()

def checkWrite (i : Nat) (w : Write) : Except FormatError Unit :=
  if w.ref ≠ refAbs ∧ im.nSeg ≤ w.ref then .error (.writeSegment i)
  else if w.addr % 4 ≠ 0 then .error (.writeAddr i w.addr)
  else .ok ()

def checkEntry : Except FormatError Unit :=
  if im.nSeg ≤ im.entrySeg then .error .entrySegment
  -- 8-byte granularity covers both encodings
  else if im.entryOff % 8 ≠ 0 ∨ im.sizeOf im.entrySeg ≤ im.entryOff then
    .error (.entryOffset im.entryOff)
  else .ok ()

def validate : Except FormatError Unit := do
  checkAll checkSegment 0 im.segments
  checkAll im.checkReloc 0 im.relocs
  checkAll im.checkWrite 0 im.writes
  im.checkEntry

end Image

/-! ## Reading -/

structure Reader where
  raw : List Byte
  pos : Nat
  /-- The bytes needed and the offset, of the first read past the end. -/
  err : Option (Nat × Nat)
deriving DecidableEq, Repr

abbrev Dec := StateT Reader (Except FormatError)

namespace Dec

def u32 : Dec Word := fun r =>
  if r.err.isSome then .ok (0, r)
  else if r.raw.length < r.pos + 4 then .ok (0, { r with err := some (4, r.pos) })
  else .ok (le32 r.raw r.pos, { r with pos := r.pos + 4 })

def bytes (n : Word) : Dec (List Byte) := fun r =>
  if r.err.isSome then .ok ([], r)
  else if r.raw.length < r.pos + n.toNat then .ok ([], { r with err := some (n.toNat, r.pos) })
  else .ok ((r.raw.drop r.pos).take n.toNat, { r with pos := r.pos + n.toNat })

def reject (c : Prop) [Decidable c] (e : FormatError) : Dec Unit :=
  if c then throw e else pure ()

/-- A counted loop that appends what it reads. -/
def many {α : Type} (x : Dec α) : Nat → Dec (List α)
  | 0 => pure []
  | k + 1 => do
    let a ← x
    let as ← many x k
    return a :: as

/-- A segment's link address and size. -/
def segHeader : Dec (Word × Word) := do
  let link ← u32
  let size ← u32
  return (link, size)

def reloc : Dec Reloc := do
  let seg ← u32
  let off ← u32
  let ref ← u32
  return ⟨seg, off, ref⟩

def write : Dec Write := do
  let addr ← u32
  let value ← u32
  let ref ← u32
  return ⟨addr, value, ref⟩

def segData : List (Word × Word) → Dec (List Segment)
  | [] => pure []
  | (link, size) :: rest => do
    let data ← bytes size
    let segs ← segData rest
    return ⟨link, data⟩ :: segs

/-- The tables and the segments. -/
def tables (nSeg nRel nWr entrySeg entryOff : Word) : Dec Image := do
  let headers ← many segHeader nSeg.toNat
  let relocs ← many reloc nRel.toNat
  let writes ← many write nWr.toNat
  let segments ← segData headers
  return ⟨segments, relocs, writes, entrySeg, entryOff⟩

/-- The body of `Decode` up to the checks on the reader. -/
def image : Dec Image := do
  let m ← u32
  reject (m ≠ magic) .magic
  let flags ← u32
  reject (flags ≠ 0) (.flags flags)
  let nSeg ← u32
  let nRel ← u32
  let nWr ← u32
  let entrySeg ← u32
  let entryOff ← u32
  -- arbitrary sanity bounds
  reject (1024 < nSeg ∨ 0x100000 < nRel ∨ 0x10000 < nWr) (.tableSizes nSeg nRel nWr)
  tables nSeg nRel nWr entrySeg entryOff

end Dec

/-- `Decode`. -/
def decode (raw : List Byte) : Except FormatError Image := do
  let (im, r) ← Dec.image ⟨raw, 0, none⟩
  match r.err with
  | some (need, pos) => throw (.truncated need pos)
  | none =>
    if r.pos ≠ raw.length then throw (.trailing (raw.length - r.pos))
    im.validate
    return im

end DmaCpu.Dmx
