-- SUMMARY: The system call handlers, the kernel's two entries and the machine they make.
import DmaCpu.Xv6.Console

/-!
# System calls and runs

A stay in the kernel is `kenter`, a handler (`dma_ksyscall` or `dma_ktick`) and
`kexit` or the park loop. Fires of the tick injector and the console wake are
consumed in between, so a run is a sequence of the events below, and a phase
says which of them can come next.

What lies behind an inode (the disk, the FAT volume, devfs), the drivers and
the loader's reading of a program file are outside this model: an `Answer` says
what they returned and what the call left in the caller's memory.
-/
namespace DmaCpu.Xv6

open Function

/-- What a path resolves to in `kfs_open`: the file that is set up for it. -/
structure Opened where
  device : Bool
  console : Bool
  readable : Bool
  writable : Bool
  deriving DecidableEq

/-- What `exec` finds under its path. -/
inductive Program where
  /-- Neither a file with a good header nor a registry row. -/
  | missing
  /-- A file: its two lengths, and whether reading both parts succeeded. -/
  | file (textlen datalen : Word) (readOk : Bool)
  /-- A registry row; it is pre-relocated when `sramhome` is not 0. -/
  | row (textlen datalen sramhome rtextlen : Word)
  deriving DecidableEq

/-- What the parts of the system outside this model answer to one system call. -/
structure Answer where
  /-- The result of a call into the disk, a driver or the clock. -/
  ret : Word := 0
  /-- What such a call leaves in the caller's memory, or the new image's. -/
  mem : Option (Word → Byte) := none
  /-- The bytes `crx_next` returns when the handler polls the console. -/
  rx : List Byte := []
  /-- TIMERAWL. -/
  now : Word := 0
  /-- What the path of an `open` resolves to. -/
  opened : Option Opened := none
  program : Program := .missing

/-- How a handler ends. -/
inductive Outcome where
  | ret (v : Word)
  /-- The handler put its caller to sleep or ended it. -/
  | block (v : Word)
  /-- The handler has arranged for the caller to resume (`exec`, `sigreturn`). -/
  | resume

namespace Kernel

/-! ## Descriptor calls that reach a device or the file system -/

/-- A call into the part of the system outside this model. -/
def answer (k : Kernel) (a : Answer) : Kernel × Word :=
  (match a.mem with
    | none => k
    | some m => k.setMem k.curr m, a.ret)

def fileread (k : Kernel) (f : FileId) (addr n : Word) (a : Answer) : Kernel × Word :=
  let ff := k.ftable f
  if !ff.readable then (k, -1)
  else match ff.type with
    | .pipe => k.piperead ff.pipe addr n
    | .device => if ff.console then k.kconsread addr n a.rx else (k, -1)
    | .inode => k.answer a
    | .none => (k.panic, 0)

def filewrite (k : Kernel) (f : FileId) (addr n : Word) (a : Answer) : Kernel × Word :=
  let ff := k.ftable f
  if !ff.writable then (k, -1)
  else match ff.type with
    | .pipe => k.pipewrite ff.pipe addr n
    -- `kconswrite` sends the bytes to the wire
    | .device => if ff.console then (k, n) else (k, -1)
    | .inode => (k, a.ret)
    | .none => (k.panic, 0)

def kfsRead (k : Kernel) (fd addr n : Word) (a : Answer) : Kernel × Word :=
  match k.fdget fd with
  | none => (k, -1)
  | some f => k.fileread f addr n a

def kfsWrite (k : Kernel) (fd addr n : Word) (a : Answer) : Kernel × Word :=
  match k.fdget fd with
  | none => (k, -1)
  | some f => k.filewrite f addr n a

def kfsOpen (k : Kernel) (a : Answer) : Kernel × Word :=
  match a.opened with
  | none => (k, -1)
  | some o =>
    match k.filealloc with
    | none => (k, -1)
    | some (k, f) =>
      match k.fdalloc f with
      | none => (k.fileclose f, -1)
      | some (k, fd) =>
        (k.setFile f { k.ftable f with
          type := if o.device then .device else .inode
          readable := o.readable, writable := o.writable, console := o.console },
         BitVec.ofNat 32 fd)

/-- `kfs_selready`: only a console without committed input is not ready. -/
def kfsSelready (k : Kernel) (fd : Word) : Bool :=
  match k.fdget fd with
  | none => true
  | some f =>
    if (k.ftable f).type = .device ∧ (k.ftable f).console then k.cons.r ≠ k.cons.w else true

/-- A buffer in the returned part of the heap is refused. -/
def badbuf (p : Proc) (addr n : Word) : Bool :=
  p.heapmax ≠ 0 && n ≠ 0 && addr < p.heapmax && p.brk < addr + n && addr ≤ addr + n

/-! ## Handlers -/

/-- A pipe handler that returns `-3` has put its caller to sleep. -/
def ioOutcome (r : Word) : Outcome := if r = blocked then .block r else .ret r

def sysRead (k : Kernel) (m : Mail) (a : Answer) : Kernel × Outcome :=
  let (k, r) :=
    if badbuf (k.proc k.curr) m.a1 m.a2 then (k, -1)
    else if k.fsready then k.kfsRead m.a0 m.a1 m.a2 a
    else k.kconsread m.a1 m.a2 a.rx
  (k, ioOutcome r)

def sysWrite (k : Kernel) (m : Mail) (a : Answer) : Kernel × Outcome :=
  let (k, r) :=
    if badbuf (k.proc k.curr) m.a1 m.a2 then (k, -1)
    else if k.fsready then k.kfsWrite m.a0 m.a1 m.a2 a
    else (k, m.a2)
  (k, ioOutcome r)

/-- A descriptor call that needs the file layer. -/
def needFs (k : Kernel) (f : Kernel → Kernel × Word) : Kernel × Outcome :=
  if k.fsready then ((f k).1, .ret (f k).2) else (k, .ret (-1))

def sysPause (k : Kernel) (m : Mail) (a : Answer) : Kernel × Outcome :=
  ((k.armTimed k.curr m.a0 a.now).sleep .ticks, .block 0)

/-- The descriptors among 0..30 that `mask` asks for and that are ready. -/
def selMask (k : Kernel) (mask : Word) : Word :=
  (List.range 31).foldl
    (fun rdy fd =>
      let ready := if k.fsready then k.kfsSelready (BitVec.ofNat 32 fd) else k.cons.r ≠ k.cons.w
      if mask.getLsbD fd && ready then rdy ||| (1 <<< fd) else rdy) 0

def sysSelect (k : Kernel) (m : Mail) (a : Answer) : Kernel × Outcome :=
  let rdy := k.selMask m.a0
  if rdy ≠ 0 ∨ m.a0 = 0 then (k, .ret rdy)
  else if m.a1 ≠ 0 then ((k.armTimed k.curr m.a1 a.now).sleep .selwaitTo, .block 0)
  else (k.sleep .selwaitInf, .block 0)

/-- The last ZOMBIE child of process `i`. -/
def zombieChild (k : Kernel) (i : Slot) : Option Slot :=
  (List.finRange nproc).reverse.find? fun c =>
    decide ((k.proc c).ppid = (k.proc i).pid ∧ (k.proc c).state = .zombie)

def sysWait (k : Kernel) (m : Mail) : Kernel × Outcome :=
  let i := k.curr
  match k.zombieChild i with
  | some c =>
    let k := if m.a0 ≠ 0 then k.pokeWord i m.a0 (k.proc c).xstate else k
    (k.setProc c { k.proc c with state := .unused }, .ret (k.proc c).pid)
  | none =>
    if ∃ c, (k.proc c).state ≠ .unused ∧ (k.proc c).ppid = (k.proc i).pid then
      (k.sleep (.proc i), .block m.ret)
    else (k, .ret (-1))

/-- Slot `c` becomes the vfork child of the current process, which is suspended
    on it. -/
def forkInto (k : Kernel) (c : Slot) : Kernel :=
  let i := k.curr
  let p := k.proc i
  let k := k.setProc c { p with
    pid := k.nextpid, ppid := p.pid, chan := .none, state := .runnable }
  let k := { k with
    nextpid := k.nextpid + 1
    inCall := update k.inCall c none }
  k.setProc i { p with chan := .proc c, state := .sleeping }

/-- `fork` has vfork semantics: the child shares the image, and the parent is
    suspended until the child has exec'd or exited. -/
def sysFork (k : Kernel) : Kernel × Outcome :=
  match findSlot fun c => decide ((k.proc c).state = .unused) with
  | none => (k, .ret (-1))
  | some c => ((if k.fsready then k.kfsForkcopy k.curr c else k).forkInto c, .block 0)

/-- Place the program found under the path: the addresses of its blocks. -/
def place (k : Kernel) : Program → Kernel × Option (Word × Word)
  | .missing => (k, none)
  | .file textlen datalen readOk =>
    let (k, tb) := k.kalloc textlen
    let (k, db) := k.kalloc datalen
    if tb = 0 ∨ db = 0 ∨ !readOk then ((k.kfree tb).kfree db, none) else (k, some (tb, db))
  | .row textlen datalen sramhome rtextlen =>
    if sramhome ≠ 0 then
      let (k, db) := k.kalloc (((rtextlen + 7) &&& ~~~7) + datalen)
      -- the text stays in flash, so there is no block for it
      if db ≠ sramhome then (k.kfree db, none) else (k, some (0, db))
    else
      let (k, tb) := k.kalloc textlen
      let (k, db) := k.kalloc datalen
      if tb = 0 ∨ db = 0 then ((k.kfree tb).kfree db, none) else (k, some (tb, db))

/-- The argument area, when there is an argument vector and room for it. -/
def placeArgs (k : Kernel) (i : Slot) (argv : Word) : Kernel :=
  if argv = 0 then k
  else
    let (k, area) := k.kalloc 256
    if area = 0 then k else k.setExecmem i .args area

/-- The process in slot `i` continues in a fresh image. -/
def enterImage (k : Kernel) (i : Slot) (a : Answer) : Kernel :=
  let j := k.nimg
  let k := { k with
    nimg := j + 1
    mem := update k.mem j (a.mem.getD fun _ => 0)
    mail := update k.mail j {}
    r0 := update k.r0 j a.ret
    imgmem := update k.imgmem j (k.execmem i) }
  k.setProc i { k.proc i with img := j }

/-- The blocks of slot `i` change hands: the suspended parents get the break
    back, the old image is released and the new one recorded. -/
def replaceImage (k : Kernel) (i : Slot) (tb db argv : Word) : Kernel :=
  let k := (k.vforkSyncBrk i).kfreeExec i
  ((k.setExecmem i .text tb).setExecmem i .data db).placeArgs i argv

def sysExec (k : Kernel) (m : Mail) (a : Answer) : Kernel × Outcome :=
  let i := k.curr
  match k.place a.program with
  | (k, none) => (k, .ret (-1))
  | (k, some (tb, db)) =>
    let k := (k.replaceImage i tb db m.a1).enterImage i a
    let k := k.vforkRelease i
    ((k.setProc i { k.proc i with state := .running }).markEnd i, .resume)

def sysKill (k : Kernel) (m : Mail) : Kernel × Outcome :=
  match findSlot fun i => decide ((k.proc i).state ≠ .unused ∧ (k.proc i).pid = m.a0) with
  | none => (k, .ret (-1))
  | some i =>
    if (k.proc i).state = .zombie then (k, .ret (-1))
    else if i = k.curr then (k.terminate i (-1), .block (-1))
    else if (k.proc i).state = .sleeping then (k.terminate i (-1), .ret 0)
    else (k.setProc i { k.proc i with killed := true }, .ret 0)

def sysTtyraw (k : Kernel) (m : Mail) : Kernel × Outcome :=
  let c := k.cons
  if m.a0 ≠ 0 then
    (k.setCons { c with raw := true, rawPid := (k.proc k.curr).pid, w := c.e }, .ret 0)
  else (k.setCons { c with raw := false, rawPid := 0 }, .ret 0)

def sysSignal (k : Kernel) (m : Mail) : Kernel × Outcome :=
  (k.setProc k.curr { k.proc k.curr with sigctx := m.a2, sigpend := .idle }, .ret 0)

/-- The word at `a` in the memory of process `i`. -/
def peekWord (k : Kernel) (i : Slot) (a : Word) : Word :=
  k.peek i (a + 3) ++ k.peek i (a + 2) ++ k.peek i (a + 1) ++ k.peek i a

def sysSigreturn (k : Kernel) : Kernel × Outcome :=
  let i := k.curr
  let ctx := (k.proc i).sigctx
  if ctx = 0 then (k, .ret (-1))
  else
    let k := k.setProc i { k.proc i with sigpend := .idle, state := .running }
    ({ k with r0 := update k.r0 (k.img i) (k.peekWord i (ctx + 8)) }, .resume)

/-- The numbers of `syscall.h` with a handler that this model follows, and those
    that only reach what is outside it. -/
inductive Sys where
  | fork | exit | wait | pipe | read | kill | exec | dup | getpid | sbrk | pause | open | write
  | close | signal | sigreturn | ttyraw | select | outside | unknown
  deriving DecidableEq, Repr

def Sys.ofNum (n : Word) : Sys :=
  match n.toNat with
  | 1 => .fork | 2 => .exit | 3 => .wait | 4 => .pipe | 5 => .read | 6 => .kill | 7 => .exec
  | 10 => .dup | 11 => .getpid | 12 => .sbrk | 13 => .pause | 15 => .open | 16 => .write
  | 21 => .close | 23 => .signal | 24 => .sigreturn | 28 => .ttyraw | 34 => .select
  -- fstat, chdir, uptime, unlink, link, mkdir, sync, meminfo, mount, umount, gpio, pinmux,
  -- pio, fb, seek, procinfo
  | 8 | 9 | 14 | 18 | 19 | 20 | 22 | 25 | 26 | 27 | 29 | 30 | 31 | 32 | 33 | 35 => .outside
  | _ => .unknown

/-- The `switch` of `dma_ksyscall`. -/
def dispatch (k : Kernel) (m : Mail) (a : Answer) : Kernel × Outcome :=
  match Sys.ofNum m.num with
  | .fork => k.sysFork
  | .exit => (k.terminate k.curr m.a0, .block (-1))
  | .wait => k.sysWait m
  | .pipe => k.needFs (·.kfsPipe m.a0)
  | .read => k.sysRead m a
  | .kill => k.sysKill m
  | .exec => k.sysExec m a
  | .dup => k.needFs (·.kfsDup m.a0)
  | .getpid => (k, .ret (k.proc k.curr).pid)
  | .sbrk => let (k, r) := k.ksbrk m.a0; (k, .ret r)
  | .pause => k.sysPause m a
  | .open => k.needFs (·.kfsOpen a)
  | .write => k.sysWrite m a
  | .close => k.needFs (·.kfsClose m.a0)
  | .signal => k.sysSignal m
  | .sigreturn => k.sysSigreturn
  | .ttyraw => k.sysTtyraw m
  | .select => k.sysSelect m a
  | .outside => let (k, r) := k.answer a; (k, .ret r)
  | .unknown => (k, .ret (-1))

/-- The tail of `dma_ksyscall`. -/
def sysTail (k : Kernel) : Outcome → Kernel
  | .ret v =>
    let k := k.setret k.curr v
    { k.setProc k.curr { k.proc k.curr with state := .running } with
      phase := .leaving (some k.curr) }
  | .block v =>
    (if (k.proc k.curr).state = .sleeping then k.setret k.curr v else k).swtch
  | .resume => { k with phase := .leaving (some k.curr) }

/-- `dma_ksyscall` after `kenter`. -/
def dmaKsyscall (k : Kernel) (a : Answer) : Kernel :=
  if (k.proc k.curr).killed then (k.terminate k.curr (-1)).swtch
  else
    let (k, o) := k.dispatch (k.mailof k.curr) a
    k.sysTail o

/-- `dma_ktick` after `kenter` and `fire_income`. -/
def dmaKtick (k : Kernel) : Kernel :=
  if k.waspark then k.swtch
  else if (k.proc k.curr).killed then (k.terminate k.curr (-1)).swtch
  else if (k.proc k.curr).state = .running then
    (k.setProc k.curr { k.proc k.curr with state := .runnable }).swtch
  else k.swtch

/-! ## Entering and leaving -/

/-- `kenter`, up to the fires that it consumes. -/
def kenter (k : Kernel) (e : Entry) : Kernel :=
  let k := if !k.fsready && k.dmaDisk then k.kfsStart else k
  { k with tickTaken := false, waspark := k.parked, parked := false, phase := .entered e }

/-- `kexit` between its two fires: publish the next process. A pending SIGINT
    diverts it into its handler. -/
def kexit (k : Kernel) (next : Slot) : Kernel :=
  let p := k.proc next
  let k :=
    if p.sigpend = .pending ∧ p.sigctx ≠ 0 then k.setProc next { p with sigpend := .inHandler }
    else k
  { k with curr := next, phase := .published }

/-! ## Events -/

/-- The current process computes: its memory and its `r0` may become anything,
    and the result of its last call has been used. -/
def runUser (k : Kernel) (mem : Word → Byte) (r0 : Word) : Kernel :=
  { k with
    mem := update k.mem (k.img k.curr) mem
    r0 := update k.r0 (k.img k.curr) r0
    inCall := update k.inCall k.curr none }

/-- It fills its mailbox. -/
def fillMail (k : Kernel) (m : Mail) : Kernel :=
  { k.setMail k.curr m with inCall := update k.inCall k.curr none }

/-- It makes a system call. -/
def trap (k : Kernel) (m : Mail) : Kernel := (k.fillMail m).kenter .syscall

end Kernel

inductive Event where
  /-- The current process computes. -/
  | user (mem : Word → Byte) (r0 : Word)
  /-- It makes a system call. -/
  | trap (m : Mail)
  /-- The tick injector's detour into the kernel, also out of the park loop. -/
  | tick
  /-- The kernel consumes a fire on its way in or out. -/
  | fire (f : Fire)
  /-- The kernel drains the console on its way out (console DMA only). -/
  | drain (rx : List Byte)
  | handler (a : Answer)
  | publish
  /-- Control returns to user code or the park loop. -/
  | leave

/-- The machine: what an event does, if it can happen. -/
def Kernel.step (k : Kernel) (e : Event) : Option Kernel :=
  if k.stuck then none
  else
    match k.phase, e with
    | .user, .user mem r0 => if k.parked then none else some (k.runUser mem r0)
    | .user, .trap m => if k.parked then none else some (k.trap m)
    | .user, .tick => some (k.kenter .tick)
    | .entered _, .fire f => some (k.fireIncome f)
    | .leaving _, .fire f => some (k.fireIncome f)
    | .published, .fire f => some (k.fireIncome f)
    | .entered .syscall, .handler a => some (k.dmaKsyscall a)
    | .entered .tick, .handler _ => some k.dmaKtick
    | .leaving (some next), .publish => some (k.kexit next)
    | .leaving none, .publish => some { k with parked := true, phase := .published }
    | .published, .drain rx => if k.consOn then some (k.pollFg rx) else none
    | .published, .leave => some { k with phase := .user }
    | _, _ => none

end DmaCpu.Xv6
