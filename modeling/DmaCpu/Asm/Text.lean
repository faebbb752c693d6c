-- SUMMARY: Assembly text: operands, lines, and what it means that code holds a text.
import DmaCpu.Asm.Machine

/-!
# Assembly text

A line is a label or an instruction, with operands as they are written. A scope
gives the symbols of an image their addresses. `Code.Holds sc a ls b` says that the
lines `ls` stand in the code from address `a` on and end at `b`.
-/
namespace DmaCpu.Asm

/-- The words of the runtime: the register file, the scratch words of lowerings, the
    cells of the comparison helpers `cw_..` and the words of the routines `rt_..`. -/
inductive Reg where
  | zero | null | at1 | at2 | lr | r0 | r1 | r2
  | sc0 | sc1 | sc2
  | cwA | cwB | cwD | cwPb | cwT | cwF | cwPa
  | macc | mcnt | mtmp | mbyte
  | lres | lcnt | lrev | lnorm
  | ares | acnt
  | dquo | drem | dta | dtb | dcnt
  | udlr | urlr | sdlr | sdsign | srlr | srsign
deriving DecidableEq, Repr

/-- A data symbol, the runtime's or the program's. -/
inductive Cell where
  | rt (r : Reg)
  | word (name : String)
deriving DecidableEq, Repr

inductive Opnd where
  /-- `name+off` for a data symbol -/
  | cell (c : Cell) (off : Word)
  /-- `name+off` for a label -/
  | text (l : String) (off : Word)
  /-- `$0x..` -/
  | num (v : Word)
  /-- `$name+off` for a data symbol -/
  | addr (c : Cell) (off : Word)
  /-- `$name+off` for a label -/
  | code (l : String) (off : Word)
  /-- `@0x..` -/
  | abs (a : Word)
  /-- `label.read` and `label.write` -/
  | field (l : String) (f : Field)
  /-- `%sniff` -/
  | sniff
  /-- `%sniffctrl` -/
  | sniffCtrl
  /-- The register of a device, which is none of this machine's memory. -/
  | mmio (name : String)
deriving DecidableEq, Repr

/-- A runtime word as an operand. -/
def rt (r : Reg) : Opnd := .cell (.rt r) 0

/-- `$label` -/
def lbl (l : String) : Opnd := .code l 0

inductive Target where
  | label (l : String)
  | num (a : Word)
deriving DecidableEq, Repr

abbrev Ins := Instr Opnd Opnd Target

inductive Line where
  | label (l : String)
  | ins (i : Ins)
deriving DecidableEq, Repr

/-- The addresses of an image's symbols. -/
structure Scope where
  cell : Cell → Word
  label : String → Word

namespace Scope

variable (sc : Scope)

/-- The address of a runtime word. -/
def reg (r : Reg) : Word := sc.cell (.rt r)

def scratch : Scratch where
  at1 := sc.reg .at1
  at2 := sc.reg .at2
  null := sc.reg .null
  zero := sc.reg .zero
  lr := sc.reg .lr

/-- A source operand in place. An operand that cannot be read stands for a source
    no instruction accepts. -/
def src : Opnd → Src
  | .cell c off => .cell (sc.cell c + off)
  | .text l off => .cell (sc.label l + off)
  | .num v => .lit v
  | .addr c off => .lit (sc.cell c + off)
  | .code l off => .lit (sc.label l + off)
  | .abs a => if a = 0 then .own else .cell a
  | .field _ _ => .none
  | .sniff => .sniff
  | .sniffCtrl => .sniffCtrl
  | .mmio _ => .none

def dst : Opnd → Dst
  | .cell c off => .cell (sc.cell c + off)
  | .text l off => .cell (sc.label l + off)
  | .num _ => .none
  | .addr _ _ => .none
  | .code _ _ => .none
  | .abs a => if a = 0 then .own else .cell a
  | .field l f => .field (sc.label l) f
  | .sniff => .sniff
  | .sniffCtrl => .sniffCtrl
  | .mmio _ => .none

@[simp] theorem src_rt (r : Reg) : sc.src (rt r) = .cell (sc.reg r) := by
  simp [src, rt, reg]

@[simp] theorem dst_rt (r : Reg) : sc.dst (rt r) = .cell (sc.reg r) := by
  simp [dst, rt, reg]

@[simp] theorem src_own : sc.src (.abs 0) = .own := by
  simp [src]

@[simp] theorem dst_field (l : String) (f : Field) : sc.dst (.field l f) = .field (sc.label l) f :=
  rfl

def target : Target → Word
  | .label l => sc.label l
  | .num a => a

def resolve (i : Ins) : Instr Src Dst Word := i.map sc.src sc.dst sc.target

end Scope

/-- The lines stand from `a` to `b`. -/
def Code.Holds (code : Code) (sc : Scope) : Word → List Line → Word → Prop
  | a, [], b => a = b
  | a, .label l :: ls, b => sc.label l = a ∧ Code.Holds code sc a ls b
  | a, .ins i :: ls, b => ∃ n, code a = some ⟨sc.resolve i, n, sc.scratch⟩ ∧
      Code.Holds code sc n ls b

section

variable {code : Code} {sc : Scope} {a b : Word} {l : String} {i : Ins} {ls ls' : List Line}

@[simp] theorem holds_nil : code.Holds sc a [] b ↔ a = b := Iff.rfl

@[simp] theorem holds_label :
    code.Holds sc a (.label l :: ls) b ↔ sc.label l = a ∧ code.Holds sc a ls b := Iff.rfl

@[simp] theorem holds_ins :
    code.Holds sc a (.ins i :: ls) b ↔
      ∃ n, code a = some ⟨sc.resolve i, n, sc.scratch⟩ ∧ code.Holds sc n ls b := Iff.rfl

theorem holds_append :
    code.Holds sc a (ls ++ ls') b ↔ ∃ c, code.Holds sc a ls c ∧ code.Holds sc c ls' b := by
  induction ls generalizing a with
  | nil => simp
  | cons x ls ih =>
    cases x with
    | label l => simp only [List.cons_append, holds_label, ih, and_assoc, exists_and_left]
    | ins i =>
      simp only [List.cons_append, holds_ins, ih, ← exists_and_left, ← exists_and_right, and_assoc]
      exact exists_comm

end

end DmaCpu.Asm
