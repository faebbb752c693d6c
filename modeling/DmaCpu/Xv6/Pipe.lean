-- SUMMARY: The scheduler fence of `kproc.c` and the pipe code of `kpipe.c`.
import DmaCpu.Lib.Ring
import DmaCpu.Xv6.State

/-!
# Pipes

A blocked pipe end cannot loop inside this kernel, so its peer completes it: a
write copies straight into a parked reader's buffer, and a read pulls the
remainder of a parked writer into the space it freed. The `while` loops of the
source are recursions on the number of bytes they may still move.

A byte's way is recorded in the stream's history at the two places where it
changes hands: `takeByte` when it leaves a writer's buffer, `handByte` when it
lands in a reader's.
-/
namespace DmaCpu.Xv6

open Function

namespace Kernel

/-! ## Scheduler fence -/

/-- Complete a system call of process `i` with value `v`: mailbox and `r0`. -/
def setret (k : Kernel) (i : Slot) (v : Word) : Kernel :=
  { k with
    mail := update k.mail (k.img i) { k.mailof i with ret := v, done := 1 }
    r0 := update k.r0 (k.img i) v }

/-- `q->chan = 0; q->state = RUNNABLE`. -/
def wake (k : Kernel) (i : Slot) : Kernel :=
  k.setProc i { k.proc i with chan := .none, state := .runnable }

/-- Deposit the result of a sleeper's system call and wake it. -/
def kcomplete (k : Kernel) (i : Slot) (v : Word) : Kernel := (k.setret i v).wake i

/-- The lowest slot asleep on `c`. -/
def kfindSleeper (k : Kernel) (c : Chan) : Option Slot :=
  (List.finRange nproc).find? fun i => decide (k.SleepsOn i c)

/-- `sleep(chan)`, which is also `kblock_current`: the current process stops
    being schedulable. -/
def sleep (k : Kernel) (c : Chan) : Kernel :=
  k.setProc k.curr { k.proc k.curr with chan := c, state := .sleeping }

/-- `while ((s = kfind_sleeper(c)) >= 0) kcomplete(s, v(s))`. Every round wakes
    one of the `nproc` slots, so `nproc` rounds are all there can be. -/
def completeAll (c : Chan) (v : Kernel → Slot → Word) : Nat → Kernel → Kernel
  | 0, k => k
  | fuel + 1, k =>
    match k.kfindSleeper c with
    | none => k
    | some s => completeAll c v fuel (k.kcomplete s (v k s))

/-! ## Moving one byte -/

/-- `nwrite - nread < PIPESIZE`. -/
def hasRoom (p : Pipe) : Bool := (p.nwrite - p.nread).toNat < pipesize

/-- History: one more move of a byte through pipe `pi`. -/
def log (k : Kernel) (pi : PipeId) (m : Move) : Kernel :=
  { k with
    moves := update k.moves (k.pipes pi).stream (k.moves (k.pipes pi).stream ++ [m]) }

/-- History: write call `c` gives its next byte. -/
def takeByte (k : Kernel) (pi : PipeId) (c : Nat) (b : Byte) : Kernel :=
  { k.log pi (.take c b) with
    calls := update k.calls c { k.calls c with taken := (k.calls c).taken + 1 } }

/-- `*dst = b` in process `i`, which is the reader the byte was meant for. -/
def handByte (k : Kernel) (pi : PipeId) (i : Slot) (dst : Word) (b : Byte) : Kernel :=
  (k.poke i dst b).log pi (.hand i b)

/-- `pi->data[pi->nwrite % PIPESIZE] = b; pi->nwrite++`, for a byte of call `c`. -/
def ringPut (k : Kernel) (pi : PipeId) (c : Nat) (b : Byte) : Kernel :=
  let k := k.takeByte pi c b
  let p := k.pipes pi
  k.setPipe pi { p with
    data := update p.data (Ring.cell p.nwrite) b
    nwrite := p.nwrite + 1 }

/-- `*dst = pi->data[pi->nread % PIPESIZE]; pi->nread++`, into process `i`. -/
def ringGet (k : Kernel) (pi : PipeId) (i : Slot) (dst : Word) : Kernel :=
  let k := k.handByte pi i dst ((k.pipes pi).data (Ring.cell (k.pipes pi).nread))
  k.setPipe pi { k.pipes pi with nread := (k.pipes pi).nread + 1 }

/-! ## The copy loops -/

/-- The write call a parked or calling writer is in. -/
def callOf (k : Kernel) (i : Slot) : Nat :=
  match k.inCall i with
  | some (.write c) => c
  | _ => 0

/-- Loop of `pull_writer` over the sleeper `ws`; returns what is left of the
    request, the advanced source pointer and the progress count. -/
def pullLoop (pi : PipeId) (ws : Slot) : Nat → Word → Word → Kernel → Kernel × Nat × Word × Word
  | 0, src, did, k => (k, 0, src, did)
  | left + 1, src, did, k =>
    if hasRoom (k.pipes pi) then
      pullLoop pi ws left (src + 1) (did + 1) (k.ringPut pi (k.callOf ws) (k.peek ws src))
    else (k, left + 1, src, did)

/-- Loop of `piperead`; the first argument is `n - got`, the result `got`. -/
def readLoop (pi : PipeId) (i : Slot) : Nat → Word → Nat → Kernel → Kernel × Nat
  | 0, _, got, k => (k, got)
  | m + 1, dst, got, k =>
    if (k.pipes pi).nread = (k.pipes pi).nwrite then (k, got)
    else readLoop pi i m (dst + 1) (got + 1) (k.ringGet pi i dst)

/-- First loop of `pipewrite`, into the parked reader `rs`: the arguments are
    `n - done`, `rmax - rgot`, `rdst`, `src + done` and `done`, which is also
    `rgot`. -/
def depositLoop (pi : PipeId) (i rs : Slot) :
    Nat → Nat → Word → Word → Nat → Kernel → Kernel × Nat
  | 0, _, _, _, done, k => (k, done)
  | _ + 1, 0, _, _, done, k => (k, done)
  | m + 1, r + 1, rdst, src, done, k =>
    let b := k.peek i src
    depositLoop pi i rs m r (rdst + 1) (src + 1) (done + 1)
      ((k.takeByte pi (k.callOf i) b).handByte pi rs rdst b)

/-- Second loop of `pipewrite`, into the ring: `n - done`, `src + done`, `done`. -/
def fillLoop (pi : PipeId) (i : Slot) : Nat → Word → Nat → Kernel → Kernel × Nat
  | 0, _, done, k => (k, done)
  | m + 1, src, done, k =>
    if hasRoom (k.pipes pi) then
      fillLoop pi i m (src + 1) (done + 1) (k.ringPut pi (k.callOf i) (k.peek i src))
    else (k, done)

/-! ## kpipe.c -/

/-- Feed a sleeping writer's remainder into the ring; complete it when
    everything it asked for has been written. -/
def pullWriter (k : Kernel) (pi : PipeId) : Kernel :=
  match k.kfindSleeper (.nwrite pi) with
  | none => k
  | some ws =>
    let m := k.mailof ws
    match pullLoop pi ws m.a2.toNat m.a1 m.done k with
    | (k, 0, _, did) => k.kcomplete ws did
    | (k, left + 1, src, did) =>
      k.setMail ws { k.mailof ws with
        a1 := src, a2 := BitVec.ofNat 32 (left + 1), done := did }

/-- The value `-3` with which a handler says that it put its caller to sleep. -/
def blocked : Word := -3

/-- History: the current process starts a read call. -/
def openRead (k : Kernel) (pi : PipeId) (n : Word) : Kernel :=
  { k with inCall := update k.inCall k.curr (some (.read (k.pipes pi).stream n)) }

def piperead (k : Kernel) (pi : PipeId) (addr n : Word) : Kernel × Word :=
  let k := k.openRead pi n
  let (k, got) := readLoop pi k.curr n.toInt.toNat addr 0 k
  let k := k.pullWriter pi
  if 0 < got then (k, BitVec.ofNat 32 got)
  else if (k.pipes pi).writeopen then (k.sleep (.nread pi), blocked)
  else (k, 0)

/-- `if (rs >= 0)` of `pipewrite`: fill the buffer of a reader that is parked
    on the pipe and complete it; returns the number of bytes it took. -/
def deposit (k : Kernel) (pi : PipeId) (addr n : Word) : Kernel × Nat :=
  match k.kfindSleeper (.nread pi) with
  | none => (k, 0)
  | some rs =>
    let m := k.mailof rs
    let (k, done) := depositLoop pi k.curr rs n.toInt.toNat m.a2.toNat m.a1 addr 0 k
    (k.kcomplete rs (BitVec.ofNat 32 done), done)

/-- History: the current process starts a write call. -/
def openCall (k : Kernel) (pi : PipeId) (addr n : Word) : Kernel :=
  { k with
    calls := update k.calls k.ncalls
      { stream := (k.pipes pi).stream
        buf := (List.range n.toNat).map fun j => k.peek k.curr (addr + BitVec.ofNat 32 j) }
    ncalls := k.ncalls + 1
    inCall := update k.inCall k.curr (some (.write k.ncalls)) }

/-- The tail of `pipewrite`: the ring is full, so the caller sleeps with the
    remainder of its request and its progress in the mailbox. -/
def parkWriter (k : Kernel) (pi : PipeId) (addr n : Word) (done : Nat) : Kernel :=
  let k := k.setMail k.curr { k.mailof k.curr with
    a1 := addr + BitVec.ofNat 32 done
    a2 := n - BitVec.ofNat 32 done
    done := BitVec.ofNat 32 done }
  let c := k.callOf k.curr
  let k := { k with calls := update k.calls c { k.calls c with parkedAt := some done } }
  k.sleep (.nwrite pi)

def pipewrite (k : Kernel) (pi : PipeId) (addr n : Word) : Kernel × Word :=
  let k := k.openCall pi addr n
  if (k.pipes pi).readopen then
    let (k, done) := k.deposit pi addr n
    let (k, done) := fillLoop pi k.curr (n.toInt - done).toNat (addr + BitVec.ofNat 32 done) done k
    if (done : Int) = n.toInt then (k, n)
    -- the source tests `readopen` once more, although nothing can have closed it
    else if (k.pipes pi).readopen then (k.parkWriter pi addr n done, blocked)
    else (k, BitVec.ofNat 32 done)
  else (k, -1)

/-- The two branches of `pipeclose`: the write end closes and every blocked
    reader gets end of file, or the read end closes and every blocked writer
    gets its short count. -/
def closeEnd (k : Kernel) (pi : PipeId) : Bool → Kernel
  | true =>
    completeAll (.nread pi) (fun _ _ => 0) nproc
      (k.setPipe pi { k.pipes pi with writeopen := false })
  | false =>
    completeAll (.nwrite pi) (fun k s => (k.mailof s).done) nproc
      (k.setPipe pi { k.pipes pi with readopen := false })

def pipeclose (k : Kernel) (pi : PipeId) (writable : Bool) : Kernel :=
  let k := k.closeEnd pi writable
  let p := k.pipes pi
  if !p.readopen && !p.writeopen then k.setPipe pi { p with inuse := false } else k

end Kernel

end DmaCpu.Xv6
