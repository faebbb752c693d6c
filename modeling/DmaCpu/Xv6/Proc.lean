-- SUMMARY: Process lifecycle: vfork release, termination, signals, the heap and the scheduler's choice.
import DmaCpu.Xv6.File
import DmaCpu.Xv6.Arena

/-!
# Processes

Loops over the process table are folds over the slots in order, so that an
iteration sees what the earlier ones did.
-/
namespace DmaCpu.Xv6

namespace Kernel

/-- `for (int i = 0; i < NPROC; i++)`. -/
def forSlots (f : Kernel → Slot → Kernel) (k : Kernel) : Kernel :=
  (List.finRange nproc).foldl f k

/-- The first slot that passes a test. -/
def findSlot (test : Slot → Bool) : Option Slot := (List.finRange nproc).find? test

/-! ## Termination -/

/-- Wake whoever sleeps on the slot of process `i`, with its pid as the result:
    its parent's `fork` returns. -/
def vforkRelease (k : Kernel) (i : Slot) : Kernel :=
  k.forSlots fun k q => if k.SleepsOn q (.proc i) then k.kcomplete q (k.proc i).pid else k

/-- Orphans of process `i` go to init; those already dead are freed. -/
def reparent (k : Kernel) (i : Slot) : Kernel :=
  k.forSlots fun k q =>
    if (k.proc q).state ≠ .unused ∧ q ≠ i ∧ (k.proc q).ppid = (k.proc i).pid then
      k.setProc q { k.proc q with
        ppid := k.initpid
        state := if (k.proc q).state = .zombie then .unused else (k.proc q).state }
    else k

/-- The parent of process `i`, if it is blocked in `wait`. -/
def waitingParent (k : Kernel) (i : Slot) : Option Slot :=
  findSlot fun q => decide ((k.proc q).pid = (k.proc i).ppid ∧ k.SleepsOn q (.proc q))

/-- Deposit the status of process `i` and its pid in the waiting parent `q`. -/
def reapInto (k : Kernel) (i q : Slot) : Kernel :=
  let a0 := (k.mailof q).a0
  let k := if a0 ≠ 0 then k.pokeWord q a0 (k.proc i).xstate else k
  k.kcomplete q (k.proc i).pid

/-- A dying editor gives the console back. -/
def dropRaw (k : Kernel) (i : Slot) : Kernel :=
  if k.cons.raw ∧ k.cons.rawPid = (k.proc i).pid then
    { k with cons := { k.cons with raw := false, rawPid := 0 } }
  else k

/-- History: the process in slot `i` exec'd or terminated. -/
def markEnd (k : Kernel) (i : Slot) : Kernel :=
  { k with ended := Function.update k.ended i (k.ended i + 1) }

/-- The last lines of `terminate`: the slot's final state. -/
def bury (k : Kernel) (i : Slot) (reaped : Bool) : Kernel :=
  let free := reaped ∨ (k.initpid ≠ 0 ∧ (k.proc i).ppid = k.initpid)
  (k.setProc i { k.proc i with
    state := if free then .unused else .zombie, killed := false }).markEnd i

/-- `terminate` up to the reaping: close the files, free the image, release a
    vfork parent, hand the children over. -/
def unwind (k : Kernel) (i : Slot) (status : Word) : Kernel :=
  let k := k.dropRaw i
  let k := k.setProc i { k.proc i with xstate := status }
  let k := if k.fsready then k.kfsExit i else k
  let k := k.kfreeExec i
  let k := k.vforkRelease i
  if k.initpid ≠ 0 then k.reparent i else k

/-- End process `i`. Works for the current process and for a sleeping victim. -/
def terminate (k : Kernel) (i : Slot) (status : Word) : Kernel :=
  let k := k.unwind i status
  match k.waitingParent i with
  | some q => (k.reapInto i q).bury i true
  | none => k.bury i false

/-! ## SIGINT -/

/-- `in_subtree`, the first argument being the hops left. -/
def inSubtree (k : Kernel) (root : Slot) : Nat → Slot → Bool
  | 0, _ => false
  | hops + 1, q =>
    if q = root then true
    else if (k.proc q).ppid = 0 then false
    else
      match findSlot fun i =>
        decide ((k.proc i).state ≠ .unused ∧ (k.proc i).pid = (k.proc q).ppid) with
      | none => false
      | some par => inSubtree k root hops par

def sigintOne (k : Kernel) (v : Slot) : Kernel :=
  let p := k.proc v
  if p.sigctx ≠ 0 then
    if p.sigpend ≠ .idle then k
    else
      -- the interrupted system call returns -1
      let k := if p.state = .sleeping then k.kcomplete v (-1) else k
      k.setProc v { k.proc v with sigpend := .pending }
  else if p.state = .sleeping then k.terminate v (-1)
  else k.setProc v { p with killed := true }

/-- The youngest live child of process `sh`. -/
def youngestChild (k : Kernel) (sh : Slot) : Option Slot :=
  ((List.finRange nproc).foldl
    (fun (best : Word × Option Slot) i =>
      if k.Live i ∧ (k.proc i).ppid = (k.proc sh).pid ∧ best.1 < (k.proc i).pid then
        ((k.proc i).pid, some i)
      else best) (0, none)).2

/-- The root of the foreground job: the process that the console shell waits
    for, or the vfork child that it is suspended on. -/
def fgRoot (k : Kernel) : Option Slot :=
  if k.fgpid = 0 then none
  else
    match findSlot fun i => decide ((k.proc i).state ≠ .unused ∧ (k.proc i).pid = k.fgpid) with
    | none => none
    | some sh =>
      if (k.proc sh).state ≠ .sleeping then none
      else if (k.proc sh).chan = .proc sh then k.youngestChild sh
      else findSlot fun i =>
        decide ((k.proc sh).chan = .proc i ∧ (k.proc i).state ≠ .unused)

/-- The foreground job: the live processes in the subtree of its root. -/
def fgJob (k : Kernel) : List Slot :=
  match k.fgRoot with
  | none => []
  | some root => (List.finRange nproc).filter fun i => decide (k.Live i) && k.inSubtree root nproc i

def deliverSigint (k : Kernel) : Kernel := k.fgJob.foldl sigintOne k

/-! ## The heap -/

/-- `HEAPCHUNK`. -/
def heapchunk : Word := 16384

/-- Allocate a chunk, halving the size toward `want` while the arena refuses. -/
def allocChunk (want : Word) : Nat → Word → Kernel → Kernel × Word × Word
  | 0, size, k => (k.hang, 0, size)
  | fuel + 1, size, k =>
    match k.kallocTop size with
    | (k, chunk) =>
      if chunk = 0 ∧ want < size then
        allocChunk want fuel (if size / 2 < want then want else size / 2) k
      else (k, chunk, size)

/-- Introduce the heap of process `p` to the suspended parent `par`. -/
def shareHeap (k : Kernel) (p par : Slot) : Kernel :=
  if (k.proc par).heapbase ≠ (k.proc p).heapbase then
    k.setProc par { k.proc par with
      heapbase := (k.proc p).heapbase
      heapmax := (k.proc p).heapmax
      brk := (k.proc p).heapbase }
  else k

/-- Hand the ownership of the chunk that `q` allocated to its parent. -/
def hoistChunk (k : Kernel) (q par : Slot) : Kernel :=
  if k.heapmem q ≠ 0 then (k.setHeapmem par (k.heapmem q)).setHeapmem q 0 else k

/-- The end of `ksbrk`: both, up the chain of suspended parents above `q`. -/
def hoistHeap (p : Slot) : Nat → Slot → Kernel → Kernel
  | 0, _, k => k.hang
  | fuel + 1, q, k =>
    match k.kfindSleeper (.proc q) with
    | none => k
    | some par => hoistHeap p fuel par ((k.shareHeap p par).hoistChunk q par)

/-- The parents' break follows at exec, when the shared image is theirs again. -/
def syncBrk (p : Slot) : Nat → Slot → Kernel → Kernel
  | 0, _, k => k.hang
  | fuel + 1, q, k =>
    match k.kfindSleeper (.proc q) with
    | none => k
    | some par =>
      syncBrk p fuel par (k.setProc par { k.proc par with
        heapbase := (k.proc p).heapbase
        heapmax := (k.proc p).heapmax
        brk := (k.proc p).brk })

def vforkSyncBrk (k : Kernel) (p : Slot) : Kernel := syncBrk p nproc p k

/-- Newly exposed heap bytes are zeroed. -/
def zeroRange (k : Kernel) (i : Slot) (lo hi : Word) : Kernel :=
  k.setMem i fun a => if lo ≤ a ∧ a < hi then 0 else k.peek i a

/-- First half of `ksbrk`: the heap region is made at the first call. -/
def openHeap (k : Kernel) (n : Word) : Kernel × Bool :=
  let i := k.curr
  if (k.proc i).heapbase ≠ 0 then (k, true)
  else if n.toInt < 0 then (k, false)
  else
    let want := (n + 0xFF) &&& ~~~0xFF
    match allocChunk want 32 (if want < heapchunk then heapchunk else want) k with
    | (k, chunk, size) =>
      if chunk = 0 then (k, false)
      else
        let k := k.setHeapmem i chunk
        (k.setProc i { k.proc i with
          heapbase := chunk, brk := chunk, heapmax := chunk + size }, true)

def ksbrk (k : Kernel) (n : Word) : Kernel × Word :=
  let i := k.curr
  match k.openHeap n with
  | (k, false) => (k, -1)
  | (k, true) =>
    let old := (k.proc i).brk
    if 0 ≤ n.toInt then
      if (k.proc i).heapmax - old < n then (k, -1)
      else
        let k := k.zeroRange i old (old + n)
        (hoistHeap i nproc i (k.setProc i { k.proc i with brk := old + n }), old)
    else if old - (k.proc i).heapbase < -n then (k, -1)
    else (hoistHeap i nproc i (k.setProc i { k.proc i with brk := old + n }), old)

/-! ## Scheduling -/

/-- `pick`: the next RUNNABLE slot after `curr`, the init filler last. -/
def pickFrom (k : Kernel) : List Slot → Option Slot → Option Slot
  | [], filler => filler
  | i :: rest, filler =>
    if (k.proc i).state = .runnable then
      if (k.proc i).pid ≠ k.initpid then some i else pickFrom k rest (some i)
    else pickFrom k rest filler

def pick (k : Kernel) : Option Slot :=
  pickFrom k ((List.finRange nproc).map fun off => k.curr + off + 1) none

/-- Switch away from the current process. -/
def swtch (k : Kernel) : Kernel := { k with phase := .leaving k.pick }

end Kernel

end DmaCpu.Xv6
