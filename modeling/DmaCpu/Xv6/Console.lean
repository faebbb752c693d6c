-- SUMMARY: Console input, timed sleeps and the tick.
import DmaCpu.Xv6.Proc

/-!
# Ticks and console input

The tick wakes timed sleepers and drains the console, and a console byte may be
Ctrl-C. Echo and output go to the wire and are left out.
-/
namespace DmaCpu.Xv6

/-- What the hardware shows when the kernel consumes a fire. -/
structure Fire where
  /-- The tick injector's count is 0: the timer fired, not the console wake. -/
  timer : Bool := true
  /-- TIMERAWL. -/
  now : Word := 0
  /-- The bytes that `crx_next` returns during the tick's console poll. -/
  rx : List Byte := []
  /-- The bytes of the poll after it, which is made with console DMA only. -/
  rx2 : List Byte := []

namespace Kernel

/-! ## Console input -/

def setCons (k : Kernel) (c : Console) : Kernel := { k with cons := c }

/-- `cons_buf[cons_e % INPUT_BUF] = c; cons_e++`. -/
def consPut (c : Console) (b : Byte) : Console :=
  { c with buf := Function.update c.buf (Ring.cell c.e) b, e := c.e + 1 }

/-- `cons_e - cons_r < INPUT_BUF`. -/
def consRoom (c : Console) : Bool := (c.e - c.r).toNat < inputBuf

/-- Committed input completes every `select` with its whole mask. -/
def selWake (k : Kernel) : Kernel :=
  k.forSlots fun k q =>
    if k.SleepsOn q .selwaitInf ∨ k.SleepsOn q .selwaitTo then
      k.kcomplete q (k.mailof q).a0
    else k

/-- One byte through the line discipline. -/
def consByte (k : Kernel) (b : Byte) : Kernel :=
  if k.cons.raw then
    let c := consPut k.cons b
    k.setCons { c with w := c.e }
  else if b = 3 then k.deliverSigint
  else
    let b := if b = 13 then 10 else b
    if b = 8 ∨ b = 0x7F then
      if k.cons.e ≠ k.cons.w then k.setCons { k.cons with e := k.cons.e - 1 } else k
    else if consRoom k.cons then
      let c := consPut k.cons b
      k.setCons (if b = 10 ∨ (c.e - c.r).toNat = inputBuf then { c with w := c.e } else c)
    else k

/-- The loop of `cons_poll` over the bytes that are waiting. -/
def consLoop : List Byte → Kernel → Kernel
  | [], k => k
  | b :: rx, k => if consRoom k.cons then consLoop rx (k.consByte b) else k

def consPoll (k : Kernel) (rx : List Byte) : Kernel :=
  let w0 := k.cons.w
  let k := consLoop rx k
  if k.cons.w ≠ w0 then k.selWake else k

/-- The loop of `kconsread`: at most the first argument's number of bytes, up
    to a newline. -/
def consCopy (i : Slot) : Nat → Word → Nat → Kernel → Kernel × Nat
  | 0, _, got, k => (k, got)
  | m + 1, dst, got, k =>
    if k.cons.r = k.cons.w then (k, got)
    else
      let c := k.cons.buf (Ring.cell k.cons.r)
      let k := (k.setCons { k.cons with r := k.cons.r + 1 }).poke i dst c
      if c = 10 then (k, got + 1) else consCopy i m (dst + 1) (got + 1) k

def kconsread (k : Kernel) (dst n : Word) (rx : List Byte) : Kernel × Word :=
  let k := k.consPoll rx
  if k.cons.r = k.cons.w then (k, -2)
  else
    let (k, got) := consCopy k.curr n.toInt.toNat dst 0 k
    (k, BitVec.ofNat 32 got)

/-! ## Timed sleeps -/

/-- One slot of `tick_wake`, with the earliest deadline left behind so far. -/
def tickSlot (now : Word) (s : Kernel × Option Word) (i : Slot) : Kernel × Option Word :=
  let k := s.1
  if k.SleepsOn i .ticks ∨ k.SleepsOn i .selwaitTo then
    let wakeUs := (k.proc i).wakeUs
    if 0 ≤ (now - wakeUs).toInt then (k.wake i, s.2)
    else
      match s.2 with
      | none => (k, some wakeUs)
      | some soon => (k, some (if (wakeUs - soon).toInt < 0 then wakeUs else soon))
  else s

def tickWake (k : Kernel) (now : Word) : Kernel :=
  let (k, soon) := (List.finRange nproc).foldl (tickSlot now) (k, none)
  { k with ntimed := if soon.isSome then 1 else 0, nextUs := soon.getD 0 }

/-- `arm_timed`: a deadline for process `i`, folded into the cached minimum. -/
def armTimed (k : Kernel) (i : Slot) (span now : Word) : Kernel :=
  let d := now + span * 100
  let k := k.setProc i { k.proc i with wakeUs := d }
  { k with
    nextUs := if k.ntimed = 0 ∨ (d - k.nextUs).toInt < 0 then d else k.nextUs
    ntimed := k.ntimed + 1 }

/-! ## The tick -/

/-- Poll the console when Ctrl-C is configured. -/
def pollFg (k : Kernel) (rx : List Byte) : Kernel := if k.fgpid ≠ 0 then k.consPoll rx else k

/-- `tick_income` up to the console: count the tick and wake who is due. -/
def tickHead (k : Kernel) (now : Word) : Kernel :=
  let k := { k with ticks := k.ticks + 1 }
  if k.ntimed ≠ 0 ∧ 0 ≤ (now - k.nextUs).toInt then k.tickWake now else k

def tickIncome (k : Kernel) (now : Word) (rx : List Byte) : Kernel := (k.tickHead now).pollFg rx

/-- With console DMA a fire is a tick only if the timer fired, and only once in
    a stay. -/
def timerFire (k : Kernel) (f : Fire) : Kernel :=
  if f.timer ∧ ¬ k.tickTaken then { k with tickTaken := true }.tickIncome f.now f.rx else k

def fireIncome (k : Kernel) (f : Fire) : Kernel :=
  if k.consOn then (k.timerFire f).pollFg f.rx2 else k.tickIncome f.now f.rx

end Kernel

end DmaCpu.Xv6
