-- SUMMARY: Words, processes, images, pipes, files and the arena: the state of the xv6 port's kernel.
import DmaCpu.Lib.Channel
import Mathlib.Algebra.Ring.Nat
import Mathlib.Data.List.FinRange

/-!
# Kernel state

The state that `kproc.c`, `kpipe.c` and `kfsglue.c` share.

Addresses that the kernel only compares (sleep channels) are an inductive
type. The words through which the kernel reaches into a process (its mailbox,
its `r0`, its buffers) belong to the *image* the process runs in, not to its
slot: `fork` copies the pointers, so a vfork child and its parent have one
mailbox. The machine has no MMU, but a program that stays inside its image
never meets the memory of another one, so memory is indexed by image too.
-/
namespace DmaCpu.Xv6

open Function

abbrev Word := BitVec 32
abbrev Byte := BitVec 8

/-- `NPROC` of `kproc.c`. -/
abbrev nproc : Nat := 8

/-- `NPIPES` of `kpipe.c`. -/
abbrev npipes : Nat := 2

/-- `NFILE` of the port's `param.h`. -/
abbrev nfile : Nat := 32

/-- `NOFILE` of `param.h`. -/
abbrev nofile : Nat := 16

/-- `PIPESIZE` of `kpipe.c`. -/
abbrev pipesize : Nat := 512

/-- `INPUT_BUF` of `kproc.c`. -/
abbrev inputBuf : Nat := 128

abbrev Slot := Fin nproc
abbrev PipeId := Fin npipes
abbrev FileId := Fin nfile
abbrev Fd := Fin nofile

instance : NeZero nproc := ⟨by decide⟩
instance : NeZero npipes := ⟨by decide⟩
instance : NeZero nofile := ⟨by decide⟩
instance : NeZero pipesize := ⟨by decide⟩

/-- The image a process runs in. Every successful `exec` makes a new one. -/
abbrev Img := Nat

/-! ## Processes -/

inductive ProcState where
  | unused | used | sleeping | runnable | running | zombie
  deriving DecidableEq, Repr

/-- A sleep channel. The kernel uses the address of some object as a token and
    only ever compares it, so distinct objects are distinct constructors. -/
inductive Chan where
  | none
  /-- `&proc[i]`: a vfork parent waits for child `i`, or process `i` waits in `wait`. -/
  | proc (i : Slot)
  | ticks
  | selwaitInf
  | selwaitTo
  /-- `&pi->nread`: a reader of the empty pipe. -/
  | nread (pi : PipeId)
  /-- `&pi->nwrite`: a writer of the full pipe. -/
  | nwrite (pi : PipeId)
  deriving DecidableEq, Repr

/-- `sigpend`: 0 idle, 1 delivery pending, 2 in handler. -/
inductive SigPend where
  | idle | pending | inHandler
  deriving DecidableEq, Repr

/-- `struct proc`. The pointers into the process image (`pdispatch`,
    `pirqresume`, `plr`, `thunk`, `pmail`) are one image number; `resume`,
    which only steers where the process continues, is left out. -/
structure Proc where
  state : ProcState := .unused
  pid : Word := 0
  ppid : Word := 0
  chan : Chan := .none
  wakeUs : Word := 0
  xstate : Word := 0
  img : Img := 0
  killed : Bool := false
  heapbase : Word := 0
  heapmax : Word := 0
  brk : Word := 0
  sigctx : Word := 0
  sigpend : SigPend := .idle
  deriving DecidableEq

/-- `struct dma_sysmail`. -/
structure Mail where
  num : Word := 0
  a0 : Word := 0
  a1 : Word := 0
  a2 : Word := 0
  ret : Word := 0
  done : Word := 0
  deriving DecidableEq

/-! ## Pipes and open files -/

/-- What happens to a byte on its way through a pipe: it is taken from a write
    call, by number, and handed to a process. History only: no function of the
    kernel reads it. -/
abbrev Move := Channel.Move Nat Slot Byte

/-- `struct pipe`. The last field is history: the number of the stream that
    goes through the pipe since it was allocated. -/
structure Pipe where
  data : Fin pipesize → Byte := fun _ => 0
  nread : Word := 0
  nwrite : Word := 0
  readopen : Bool := false
  writeopen : Bool := false
  inuse : Bool := false
  stream : Nat := 0

inductive FileType where
  | none | pipe | inode | device
  deriving DecidableEq, Repr

/-- `struct file`, without the inode and offset that pipes do not use. Of the
    device numbers only CONSOLE has a driver. -/
structure File where
  ref : Nat := 0
  type : FileType := .none
  readable : Bool := false
  writable : Bool := false
  pipe : PipeId := 0
  console : Bool := false
  deriving DecidableEq

/-- The record of one `pipewrite` call. History only: the call's stream, what
    its buffer held when the call was made, how many of its bytes have been
    taken, and how many had been when it went to sleep. -/
structure WriteCall where
  stream : Nat := 0
  buf : List Byte := []
  taken : Nat := 0
  parkedAt : Option Nat := none

/-- A call of `pipewrite`, by its number, or of `piperead`, by its stream and
    length. History only. -/
inductive Call where
  | write (c : Nat)
  | read (stream : Nat) (n : Word)
  deriving DecidableEq

/-! ## Console and arena -/

/-- The cooked input ring, whose counters run freely, and raw mode. -/
structure Console where
  buf : Fin inputBuf → Byte := fun _ => 0
  r : Word := 0
  w : Word := 0
  e : Word := 0
  raw : Bool := false
  rawPid : Word := 0

/-- `struct khdr`, the header of an arena block. -/
structure Khdr where
  size : Word := 0
  next : Word := 0
  deriving DecidableEq

/-- The three arena blocks of an exec'd image. -/
inductive Part where
  | text | data | args
  deriving DecidableEq, Repr

/-! ## The kernel -/

inductive Entry where
  | syscall | tick
  deriving DecidableEq, Repr

/-- Where control is. Between `kenter` and the handler, and between the handler
    and the return to user code, the tick and the console wake may fire. -/
inductive Phase where
  | user
  | entered (e : Entry)
  /-- The handler is done; `kexit` will resume `next`, or `swtch` will park. -/
  | leaving (next : Option Slot)
  | published
  deriving DecidableEq, Repr

structure Kernel where
  proc : Slot → Proc := fun _ => {}
  curr : Slot := 0
  phase : Phase := .user
  parked : Bool := false
  waspark : Bool := false
  tickTaken : Bool := false
  ticks : Word := 0
  ntimed : Word := 0
  nextUs : Word := 0
  nextpid : Word := 0
  initpid : Word := 0
  fgpid : Word := 0
  /-- `kcons_on()`. -/
  consOn : Bool := false
  cons : Console := {}
  /-- `mailof(slot)`, by image. -/
  mail : Img → Mail := fun _ => {}
  /-- The `r0` word of the image's register bank. -/
  r0 : Img → Word := fun _ => 0
  mem : Img → Word → Byte := fun _ _ => 0
  /-- The number of images made so far. -/
  nimg : Img := nproc
  arena : Word := 0
  arenaEnd : Word := 0
  kheapInit : Bool := false
  kfreelist : Word := 0
  khdr : Word → Khdr := fun _ => {}
  execmem : Slot → Part → Word := fun _ _ => 0
  heapmem : Slot → Word := fun _ => 0
  /-- The loader configured `dma_disk`. -/
  dmaDisk : Bool := true
  fsready : Bool := false
  pipes : PipeId → Pipe := fun _ => {}
  ftable : FileId → File := fun _ => {}
  ofile : Slot → Fd → Option FileId := fun _ _ => none
  /-- The kernel never returns: it called `panic` or a list walk does not end. -/
  stuck : Bool := false
  /-- History: what has happened to the bytes of each stream, and the number of
      streams so far. The first ones belong to the pipes as they are at boot. -/
  moves : Nat → List Move := fun _ => []
  nstream : Nat := npipes
  /-- History: the write calls made so far, by number. -/
  calls : Nat → WriteCall := fun _ => {}
  ncalls : Nat := 0
  /-- History: the pipe call whose result the process has not used yet. -/
  inCall : Slot → Option Call := fun _ => none
  /-- History: the blocks an image was placed in. -/
  imgmem : Img → Part → Word := fun _ _ => 0
  /-- History: how often the slot's process has exec'd or terminated. -/
  ended : Slot → Nat := fun _ => 0

namespace Kernel

/-- The image of the process in slot `i`. -/
def img (k : Kernel) (i : Slot) : Img := (k.proc i).img

def setProc (k : Kernel) (i : Slot) (p : Proc) : Kernel :=
  { k with proc := update k.proc i p }

def setMail (k : Kernel) (i : Slot) (m : Mail) : Kernel :=
  { k with mail := update k.mail (k.img i) m }

def setPipe (k : Kernel) (pi : PipeId) (p : Pipe) : Kernel :=
  { k with pipes := update k.pipes pi p }

def setFile (k : Kernel) (f : FileId) (x : File) : Kernel :=
  { k with ftable := update k.ftable f x }

/-- `p->ofile[fd] = f` for the process in slot `i`. -/
def setOfile (k : Kernel) (i : Slot) (fd : Fd) (f : Option FileId) : Kernel :=
  { k with ofile := update k.ofile i (update (k.ofile i) fd f) }

/-- `kmail_get`: the mailbox of process `i`. -/
def mailof (k : Kernel) (i : Slot) : Mail := k.mail (k.img i)

/-- One byte of the memory of process `i`. -/
def peek (k : Kernel) (i : Slot) (a : Word) : Byte := k.mem (k.img i) a

/-- The memory of process `i` becomes `m`. -/
def setMem (k : Kernel) (i : Slot) (m : Word → Byte) : Kernel :=
  { k with mem := update k.mem (k.img i) m }

/-- Store one byte into the memory of process `i`. -/
def poke (k : Kernel) (i : Slot) (a : Word) (b : Byte) : Kernel :=
  k.setMem i (update (k.mem (k.img i)) a b)

/-- `W(a) = v` in the memory of process `i`, least significant byte first. -/
def pokeWord (k : Kernel) (i : Slot) (a v : Word) : Kernel :=
  (List.range 4).foldl
    (fun k j => k.poke i (a + BitVec.ofNat 32 j) (v.extractLsb' (8 * j) 8)) k

/-- A process that may be executing user code: the scheduler picks RUNNABLE
    slots, and leaves the one it resumed RUNNABLE until its next system call. -/
def Ready (k : Kernel) (i : Slot) : Prop :=
  (k.proc i).state = .runnable ∨ (k.proc i).state = .running

instance (k : Kernel) (i : Slot) : Decidable (k.Ready i) :=
  inferInstanceAs (Decidable (_ ∨ _))

/-- Neither UNUSED nor ZOMBIE. -/
def Live (k : Kernel) (i : Slot) : Prop :=
  (k.proc i).state ≠ .unused ∧ (k.proc i).state ≠ .zombie

instance (k : Kernel) (i : Slot) : Decidable (k.Live i) :=
  inferInstanceAs (Decidable (_ ∧ _))

/-- Process `i` is asleep on channel `c`. -/
def SleepsOn (k : Kernel) (i : Slot) (c : Chan) : Prop :=
  (k.proc i).state = .sleeping ∧ (k.proc i).chan = c

instance (k : Kernel) (i : Slot) (c : Chan) : Decidable (k.SleepsOn i c) :=
  inferInstanceAs (Decidable (_ ∧ _))

/-- Process `i` is suspended in `fork` until its vfork child `c` has exec'd or
    terminated. (A process asleep on its own slot is in `wait`.) -/
def Suspended (k : Kernel) (i c : Slot) : Prop :=
  k.SleepsOn i (.proc c) ∧ c ≠ i

instance (k : Kernel) (i c : Slot) : Decidable (k.Suspended i c) :=
  inferInstanceAs (Decidable (_ ∧ _))

end Kernel

end DmaCpu.Xv6
