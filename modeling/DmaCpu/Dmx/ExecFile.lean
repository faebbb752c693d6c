-- SUMMARY: The on-disk executable that `DMXExec` of `fsimg.go` makes of an image.
import DmaCpu.Dmx.Encode

/-!
# Executables on disk

A header of thirteen words, the text, the data, and one word per relocation: the
offset, with a bit for the segment it is in and a bit for the segment it refers to.
The header holds the offsets of the seven symbols that the kernel needs.
-/
namespace DmaCpu.Dmx

/-- `"DMAX"`, little-endian. -/
def execMagic : Word := 0x58414D44

/-- How `DMXExec` stops short: a symbol is not found, or there is no second segment. -/
inductive ExecFail (ε : Type) where
  | symbol (e : ε)
  | panic
deriving DecidableEq, Repr

/-- `pad`, to whole words. -/
def pad (b : List Byte) : List Byte := b ++ List.replicate ((4 - b.length % 4) % 4) 0

/-- The symbols in the order of the header, each with the link address of its segment. -/
def execSyms (text data : Word) : List (String × Word) :=
  [("warmstart", text), ("crtthunk", text), ("dispatch", data), ("irqresume", data), ("lr", data),
    ("g___dma_sysmail", data), ("g___dma_syscall_entry", data)]

/-- The offsets of the symbols, up to the first that is not found. -/
def offsets {ε : Type} (sym : String → Except ε Word) :
    List (String × Word) → Except (ExecFail ε) (List Word)
  | [] => .ok []
  | (name, base) :: rest =>
    match sym name with
    | .error e => .error (.symbol e)
    | .ok a => (offsets sym rest).map fun offs => (a - base) :: offs

/-- The word for a relocation. -/
def Reloc.pack (r : Reloc) : Word :=
  (r.off &&& 0x3FFFFFFF) ||| (if r.seg = 1 then 0x80000000 else 0) |||
    (if r.ref = 1 then 0x40000000 else 0)

namespace Image

variable (im : Image) (text data : Segment) (offs : List Word)

/-- The header of the file. -/
def execHeader : List Word :=
  [execMagic, BitVec.ofNat 32 (pad text.data).length, BitVec.ofNat 32 (pad data.data).length,
    text.linkAddr, data.linkAddr, BitVec.ofNat 32 im.relocs.length] ++ offs

/-- The bytes of the file. -/
def execBytes : List Byte :=
  leBytes (im.execHeader text data offs) ++ pad text.data ++ pad data.data ++
    leBytes (im.relocs.map Reloc.pack)

/-- `DMXExec`. -/
def dmxExec {ε : Type} (sym : String → Except ε Word) : Except (ExecFail ε) (List Byte) :=
  match im.segments with
  | text :: data :: _ =>
    (offsets sym (execSyms text.linkAddr data.linkAddr)).map (im.execBytes text data)
  | _ => .error .panic

end Image

theorem pad_eq {b : List Byte} (h : b.length % 4 = 0) : pad b = b := by
  rw [pad, h]
  exact List.append_nil b

end DmaCpu.Dmx
