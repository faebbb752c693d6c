-- SUMMARY: The open-file table of `file.c` and the descriptor calls of `kfsglue.c`.
import DmaCpu.Xv6.Pipe

/-!
# Open files

`struct file` objects are shared between descriptors by reference count; the
last close of a pipe end closes that side of the pipe. Reads and writes are in
`Syscall.lean`, because a console read can deliver an interrupt.
-/
namespace DmaCpu.Xv6

namespace Kernel

/-! ## file.c -/

def filealloc (k : Kernel) : Option (Kernel × FileId) :=
  match (List.finRange nfile).find? fun f => decide ((k.ftable f).ref = 0) with
  | none => none
  | some f => some (k.setFile f { k.ftable f with ref := 1 }, f)

/-- The kernel called `panic` and spins. -/
def panic (k : Kernel) : Kernel := { k with stuck := true }

def filedup (k : Kernel) (f : FileId) : Kernel :=
  if (k.ftable f).ref < 1 then k.panic
  else k.setFile f { k.ftable f with ref := (k.ftable f).ref + 1 }

def fileclose (k : Kernel) (f : FileId) : Kernel :=
  let ff := k.ftable f
  if ff.ref < 1 then k.panic
  else if 0 < ff.ref - 1 then k.setFile f { ff with ref := ff.ref - 1 }
  else
    let k := k.setFile f { ff with ref := 0, type := .none }
    if ff.type = .pipe then k.pipeclose ff.pipe ff.writable else k

/-- Pipe `pi` starts empty with both ends open. -/
def openPipe (k : Kernel) (pi : PipeId) : Kernel :=
  let k := k.setPipe pi { k.pipes pi with
    inuse := true, readopen := true, writeopen := true, nread := 0, nwrite := 0
    stream := k.nstream }
  { k with nstream := k.nstream + 1 }

/-- `pipealloc`: the first unused pipe with a read end and a write end. -/
def pipealloc (k : Kernel) : Kernel × Option (FileId × FileId) :=
  match (List.finRange npipes).find? fun pi => !(k.pipes pi).inuse with
  | none => (k, none)
  | some pi =>
    match k.filealloc with
    | none => (k, none)
    | some (k, f0) =>
      match k.filealloc with
      | none => (k.fileclose f0, none)
      | some (k, f1) =>
        let k := k.openPipe pi
        let k := k.setFile f0 { k.ftable f0 with
          type := .pipe, readable := true, writable := false, pipe := pi }
        (k.setFile f1 { k.ftable f1 with
          type := .pipe, readable := false, writable := true, pipe := pi }, some (f0, f1))

/-! ## kfsglue.c -/

def fdalloc (k : Kernel) (f : FileId) : Option (Kernel × Fd) :=
  match (List.finRange nofile).find? fun fd => (k.ofile k.curr fd).isNone with
  | none => none
  | some fd => some (k.setOfile k.curr fd (some f), fd)

def fdget (k : Kernel) (fd : Word) : Option FileId :=
  if h : fd.toNat < nofile then k.ofile k.curr ⟨fd.toNat, h⟩ else none

def kfsClose (k : Kernel) (fd : Word) : Kernel × Word :=
  if h : fd.toNat < nofile then
    match k.ofile k.curr ⟨fd.toNat, h⟩ with
    | none => (k, -1)
    | some f => ((k.setOfile k.curr ⟨fd.toNat, h⟩ none).fileclose f, 0)
  else (k, -1)

def kfsDup (k : Kernel) (fd : Word) : Kernel × Word :=
  match k.fdget fd with
  | none => (k, -1)
  | some f =>
    match k.fdalloc f with
    | none => (k, -1)
    | some (k, nfd) => (k.filedup f, BitVec.ofNat 32 nfd)

def kfsPipe (k : Kernel) (fdarray : Word) : Kernel × Word :=
  match k.pipealloc with
  | (k, none) => (k, -1)
  | (k, some (rf, wf)) =>
    match k.fdalloc rf with
    | none => ((k.fileclose rf).fileclose wf, -1)
    | some (k, fd0) =>
      match k.fdalloc wf with
      | none => (((k.setOfile k.curr fd0 none).fileclose rf).fileclose wf, -1)
      | some (k, fd1) =>
        ((k.pokeWord k.curr fdarray (BitVec.ofNat 32 fd0)).pokeWord k.curr (fdarray + 4)
          (BitVec.ofNat 32 fd1), 0)

/-- `kfs_forkcopy`: the child's descriptors refer to the parent's files. -/
def kfsForkcopy (k : Kernel) (parent child : Slot) : Kernel :=
  (List.finRange nofile).foldl
    (fun k fd =>
      match k.ofile parent fd with
      | none => k.setOfile child fd none
      | some f => (k.filedup f).setOfile child fd (some f)) k

/-- `kfs_exit`: close every descriptor of the slot. -/
def kfsExit (k : Kernel) (slot : Slot) : Kernel :=
  (List.finRange nofile).foldl
    (fun k fd =>
      match k.ofile slot fd with
      | none => k
      | some f => (k.fileclose f).setOfile slot fd none) k

/-- One descriptor of `kfs_start`: a console file in slot `i`. -/
def consoleFd (k : Kernel) (i : Slot) (fd : Fd) : Kernel :=
  match k.filealloc with
  | none => k.panic
  | some (k, f) =>
    (k.setFile f { k.ftable f with
      type := .device, readable := true, writable := true, console := true }).setOfile i fd (some f)

/-- `kfs_start`: every slot gets the console as descriptors 0, 1 and 2. -/
def kfsStart (k : Kernel) : Kernel :=
  let k := (List.finRange nproc).foldl
    (fun k i => [(0 : Fd), 1, 2].foldl (fun k fd => k.consoleFd i fd) k) k
  { k with fsready := true }

end Kernel

end DmaCpu.Xv6
