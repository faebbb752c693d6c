-- SUMMARY: The machine an assembly programmer sees: macros as instructions over cells of words.
import DmaCpu.Lib.Eventually
import DmaCpu.Emu.Dma

/-!
# The assembly machine

One instruction of `dmaasm` after another, each with the effect its macro is for.
Memory is a word for every aligned address. What a macro leaves in the scratch
words `at`, `at2` and `null` and in the accumulator is anybody's guess, and no step
below may depend on it. A move whose address is `@0` takes it from a field of its
own record, where an earlier move has put it; no other field can be written.

A machine that gets into a situation this level does not describe (an unaligned
address, a `jbool` of 2, a macro while the sniffer is set up otherwise) is stuck.
-/
namespace DmaCpu.Asm

/-! ## Instructions -/

/-- The fields of a record that code patches. -/
inductive Field where
  | read
  | write
deriving DecidableEq, Repr

structure Flags where
  size : Width := .word
  count : Nat := 1
  incrR : Bool := false
  incrW : Bool := false
deriving DecidableEq, Repr

/-- `incrr, incrw, wcount=n`. -/
def Flags.words (n : Nat) : Flags := { count := n, incrR := true, incrW := true }

inductive BinOp where
  | add
  | sub
  | or
  | xor
  | and
  | andn
deriving DecidableEq, Repr

/-- The conditions of the two-way branches: the mnemonics `jneg`, `jsign`, `jeq`,
    `jlt`, `jltu` and `jbool`. -/
inductive Test (α : Type) where
  | neg (a : α)
  | sign (a : α)
  | eq (a b : α)
  | lt (a b : α)
  | ltu (a b : α)
  | bool (a : α)
deriving DecidableEq, Repr

/-- Instructions over sources `α`, destinations `β` and jump targets `γ`. A branch
    names the target for a condition that holds first; `jbool` is written the
    other way round. -/
inductive Instr (α β γ : Type) where
  | move (src : α) (dst : β) (fl : Flags)
  | bin (op : BinOp) (a b : α) (dst : β)
  | shl (a : α) (dst : β)
  | mulc (a : α) (k : Nat) (dst : β)
  | jump (target : γ)
  | jumpr (a : α)
  | branch (c : Test α) (yes no : γ)
  | call (target : γ)
  | ret
  | halt
deriving DecidableEq, Repr

def Test.map {α α' : Type} (f : α → α') : Test α → Test α'
  | .neg a => .neg (f a)
  | .sign a => .sign (f a)
  | .eq a b => .eq (f a) (f b)
  | .lt a b => .lt (f a) (f b)
  | .ltu a b => .ltu (f a) (f b)
  | .bool a => .bool (f a)

def Instr.map {α α' β β' γ γ' : Type} (f : α → α') (g : β → β') (h : γ → γ') :
    Instr α β γ → Instr α' β' γ'
  | .move src dst fl => .move (f src) (g dst) fl
  | .bin op a b dst => .bin op (f a) (f b) (g dst)
  | .shl a dst => .shl (f a) (g dst)
  | .mulc a k dst => .mulc (f a) k (g dst)
  | .jump target => .jump (h target)
  | .jumpr a => .jumpr (f a)
  | .branch c yes no => .branch (c.map f) (h yes) (h no)
  | .call target => .call (h target)
  | .ret => .ret
  | .halt => .halt

/-- Where a resolved instruction reads. -/
inductive Src where
  | cell (addr : Word)
  | lit (val : Word)
  | sniff
  | sniffCtrl
  /-- The address in the record's own READ field. -/
  | own
  /-- Nothing that can be read. -/
  | none
deriving DecidableEq, Repr

/-- Where it writes. -/
inductive Dst where
  | cell (addr : Word)
  | sniff
  | sniffCtrl
  /-- The address in the record's own WRITE field. -/
  | own
  /-- A field of the record at `r`. -/
  | field (r : Word) (f : Field)
  /-- Nothing that can be written. -/
  | none
deriving DecidableEq, Repr

/-- The words of the register file that macros use without being told. -/
structure Scratch where
  at1 : Word
  at2 : Word
  null : Word
  zero : Word
  lr : Word
deriving DecidableEq, Repr

/-- An instruction in place: where the next one is, and the register file of the
    image it belongs to. -/
structure Entry where
  ins : Instr Src Dst Word
  next : Word
  scr : Scratch
deriving DecidableEq, Repr

abbrev Code := Word → Option Entry

/-! ## Memory -/

abbrev Cells := Word → Word

def lane (a : Word) : Nat := a.toNat % 4

/-- The address of the word an address lies in. -/
def wordOf (a : Word) : Word := a - BitVec.ofNat 32 (lane a)

def Aligned (a : Word) (w : Width) : Prop := a.toNat % w.bytes = 0

instance (a : Word) (w : Width) : Decidable (Aligned a w) :=
  inferInstanceAs (Decidable (a.toNat % w.bytes = 0))

def mask (w : Width) : Word := BitVec.ofNat 32 (2 ^ (8 * w.bytes) - 1)

/-- What an access of width `w` sees of a word, `k` bytes up. -/
def extract (x : Word) (k : Nat) (w : Width) : Word := (x >>> (8 * k)) &&& mask w

/-- A word with the low bytes of `v` put `k` bytes up. -/
def splice (x : Word) (k : Nat) (w : Width) (v : Word) : Word :=
  (x &&& ~~~(mask w <<< (8 * k))) ||| ((v &&& mask w) <<< (8 * k))

namespace Cells

variable (m : Cells)

def load (a : Word) (w : Width) : Option Word :=
  if Aligned a w then some (extract (m (wordOf a)) (lane a) w) else none

def store (a : Word) (w : Width) (v : Word) : Option Cells :=
  if Aligned a w then some (Function.update m (wordOf a) (splice (m (wordOf a)) (lane a) w v))
  else none

end Cells

/-! ## Steps -/

structure State where
  pc : Word
  cells : Cells
  acc : Word
  sniffCtrl : Word
  fields : Word → Field → Word

/-- What a macro leaves behind in the scratch words and the accumulator. -/
structure Junk where
  acc : Word
  at1 : Word
  at2 : Word
  null : Word

/-- A machine: its code, and the channel the sniffer watches. -/
structure Machine where
  code : Code
  chan : Nat

def BinOp.eval : BinOp → Word → Word → Word
  | .add, x, y => x + y
  | .sub, x, y => x - y
  | .or, x, y => x ||| y
  | .xor, x, y => x ^^^ y
  | .and, x, y => x &&& y
  | .andn, x, y => x &&& ~~~y

/-- Whether a condition holds of the words it tests. `jneg` is for magnitudes below
    `2^27` and `jbool` for 0 and 1. -/
def Test.eval : Test Word → Option Bool
  | .neg x => if -2 ^ 27 < x.toInt ∧ x.toInt < 2 ^ 27 then some x.msb else none
  | .sign x => some x.msb
  | .eq x y => some (x == y)
  | .lt x y => some (x.slt y)
  | .ltu x y => some (x.ult y)
  | .bool x => if x = 0 then some false else if x = 1 then some true else none

/-- A condition on one operand, which its macro reads first. -/
def Test.one {α : Type} : Test α → Bool
  | .neg _ => true
  | .sign _ => true
  | .eq _ _ => false
  | .lt _ _ => false
  | .ltu _ _ => false
  | .bool _ => true

/-- The words a condition is about, by a partial reading. -/
def Test.read {α : Type} (f : α → Option Word) : Test α → Option (Test Word)
  | .neg a => (f a).map .neg
  | .sign a => (f a).map .sign
  | .eq a b => (f a).bind fun x => (f b).map fun y => .eq x y
  | .lt a b => (f a).bind fun x => (f b).map fun y => .lt x y
  | .ltu a b => (f a).bind fun x => (f b).map fun y => .ltu x y
  | .bool a => (f a).map .bool

namespace Machine

variable (M : Machine)

/-- The CTRL word of the sniffer that an image sets up and macros rely on. -/
def sniff : Word :=
  Emu.sniffCtrlEN ||| Emu.sniffCtrlDmach M.chan ||| Emu.sniffCtrlCalc Emu.sniffCalcSum

/-- The record at `r` leaves its field `f` open. -/
def opens (r : Word) (f : Field) : Bool :=
  match M.code r with
  | some e =>
    match e.ins, f with
    | .move src _ _, .read => src = .own
    | .move _ dst _, .write => dst = .own
    | _, _ => false
  | none => false

/-- A read by the instruction at the program counter, `k` bytes past the address. -/
def read (s : State) (w : Width) (k : Nat) : Src → Option Word
  | .cell a => s.cells.load (a + BitVec.ofNat 32 k) w
  | .lit v => if k = 0 then some (v &&& mask w) else none
  | .sniff => if k = 0 ∧ w = .word then some (Emu.Dma.sniffShown s.sniffCtrl s.acc) else none
  | .sniffCtrl => if k = 0 ∧ w = .word then some s.sniffCtrl else none
  | .own => s.cells.load (s.fields s.pc .read + BitVec.ofNat 32 k) w
  | .none => none

/-- The fields with one of them set. -/
def patch (fl : Word → Field → Word) (r : Word) (f : Field) (v : Word) : Word → Field → Word :=
  fun r' f' => if r' = r ∧ f' = f then v else fl r' f'

def write (s : State) (w : Width) (k : Nat) (v : Word) : Dst → Option State
  | .cell a => (s.cells.store (a + BitVec.ofNat 32 k) w v).map fun m => { s with cells := m }
  | .sniff => if k = 0 ∧ w = .word then some { s with acc := v } else none
  | .sniffCtrl => if k = 0 ∧ w = .word then some { s with sniffCtrl := v } else none
  | .own => (s.cells.store (s.fields s.pc .write + BitVec.ofNat 32 k) w v).map
      fun m => { s with cells := m }
  | .field r f =>
    if k = 0 ∧ w = .word ∧ M.opens r f = true then
      some { s with fields := patch s.fields r f v }
    else none
  | .none => none

/-- `n` data of a move, the first of them datum `i`. -/
def moves (src : Src) (dst : Dst) (fl : Flags) (i : Nat) : Nat → State → Option State
  | 0, s => some s
  | n + 1, s =>
    (read s fl.size (if fl.incrR then i * fl.size.bytes else 0) src).bind fun v =>
      (M.write s fl.size (if fl.incrW then i * fl.size.bytes else 0) v dst).bind
        (moves src dst fl (i + 1) n)

/-- The operand of a macro, which may not be one of the words in `avoid`, that the
    macro overwrites before it has done reading. -/
def operand (m : Cells) (ctrl : Word) (avoid : List Word) : Src → Option Word
  | .cell a => if a ∈ avoid then none else m.load a .word
  | .lit v => some v
  | .sniff => none
  | .sniffCtrl => some ctrl
  | .own => none
  | .none => none

/-- The result of a macro. -/
def result (s : State) (v : Word) : Dst → Option State
  | .cell a => (s.cells.store a .word v).map fun m => { s with cells := m }
  | .sniff => none
  | .sniffCtrl => none
  | .own => none
  | .field r f => M.write s .word 0 v (.field r f)
  | .none => none

/-- After a macro that uses the accumulator and `null`. -/
def spoil (scr : Scratch) (j : Junk) (s : State) : State :=
  { s with cells := Function.update s.cells scr.null j.null, acc := j.acc }

/-- After a macro that uses `at` and `at2` as well. -/
def spoilAll (scr : Scratch) (j : Junk) (s : State) : State :=
  let m := Function.update (Function.update s.cells scr.at1 j.at1) scr.at2 j.at2
  spoil scr j { s with cells := m }

def goto (pc : Word) (s : State) : State := { s with pc := pc }

/-- The macro for `op`: of the six only `and` needs a scratch word. -/
def bin (e : Entry) (j : Junk) (s : State) (op : BinOp) (a b : Src) (dst : Dst) : Option State :=
  let avoid := if op = .and then [e.scr.at1, e.scr.at2, e.scr.null] else [e.scr.null]
  let spoilt := if op = .and then spoilAll e.scr j s else spoil e.scr j s
  (operand s.cells s.sniffCtrl avoid a).bind fun x =>
    (operand s.cells s.sniffCtrl avoid b).bind fun y =>
      (M.result spoilt (op.eval x y) dst).map (goto e.next)

/-- The macros that add an operand up. -/
def sum (e : Entry) (j : Junk) (s : State) (a : Src) (k : Nat) (dst : Dst) : Option State :=
  (operand s.cells s.sniffCtrl [e.scr.null] a).bind fun x =>
    (M.result (spoil e.scr j s) (x * BitVec.ofNat 32 k) dst).map (goto e.next)

/-- The two-way branches. -/
def branch (e : Entry) (j : Junk) (s : State) (c : Test Src) (yes no : Word) : Option State :=
  let avoid := if c.one then [e.scr.null] else [e.scr.at1, e.scr.at2, e.scr.null]
  (c.read (operand s.cells s.sniffCtrl avoid)).bind fun c => c.eval.map fun b =>
    goto (if b then yes else no) (spoilAll e.scr j s)

/-- One instruction, with `j` left behind by its macro. -/
def exec (e : Entry) (j : Junk) (s : State) : Option State :=
  match e.ins with
  | .move src dst fl => (M.moves src dst fl 0 fl.count s).map (goto e.next)
  | .bin op a b dst => if s.sniffCtrl = M.sniff then M.bin e j s op a b dst else none
  | .shl a dst => if s.sniffCtrl = M.sniff then M.sum e j s a 2 dst else none
  | .mulc a k dst =>
    if s.sniffCtrl = M.sniff ∧ s.cells e.scr.zero = 0 ∧ k < 2 ^ 28 then M.sum e j s a k dst
    else none
  | .jump target => some (goto target s)
  | .jumpr a => (operand s.cells s.sniffCtrl [] a).map fun x => goto x s
  | .branch c yes no =>
    if s.sniffCtrl = M.sniff ∧ s.cells e.scr.zero = 0 then branch e j s c yes no else none
  | .call target =>
    (s.cells.store e.scr.lr .word e.next).map fun m => goto target { s with cells := m }
  | .ret => (s.cells.load e.scr.lr .word).map fun x => goto x s
  | .halt => none

/-- What the step from `s` guarantees, whatever the macro leaves behind. -/
def step (s : State) (P : State → Prop) : Prop :=
  ∃ e, M.code s.pc = some e ∧ ∀ j, ∃ t, M.exec e j s = some t ∧ P t

/-- From `s` the machine gets to a state in `Q`. -/
abbrev Runs (Q : State → Prop) (s : State) : Prop := Eventually M.step Q s

end Machine

end DmaCpu.Asm
