-- SUMMARY: The compiler's view of LLVM values: types, widths, bounds, and the operands they are rendered to.
import DmaCpu.Asm.Text

/-!
# Values

The parts of `func.go` and `facts.go` that every lowering starts from. An
aggregate type is known by its size. Go's maps are functions to `Option`.
-/
namespace DmaCpu.Cc

open Asm

inductive Ty where
  | int (bits : Nat)
  | ptr
  /-- An array or a structure of `size` bytes. -/
  | agg (size : Nat)
  | void
deriving DecidableEq, Repr

inductive Value where
  /-- An integer constant; also `null` and `undef`. -/
  | const (int : BitVec 64) (typ : Option Ty)
  | global (name : String) (off : Word)
  | func (name : String) (off : Word)
  | loc (name : String) (typ : Option Ty)
deriving DecidableEq, Repr

inductive Error where
  | wideInt (bits : Nat)
  | unsupportedType (t : Ty)
  | hardwareAddress (name : String)
deriving DecidableEq, Repr

/-- `width`. -/
def width : Ty → Except Error Nat
  | .int bits => if 32 < bits then .error (.wideInt bits) else .ok bits
  | .ptr => .ok 32
  | .agg size =>
    if size ≤ 1 then .ok 8
    else if size ≤ 2 then .ok 16
    else if size ≤ 4 then .ok 32
    else .error (.unsupportedType (.agg size))
  | .void => .error (.unsupportedType .void)

/-! ## Bounds -/

def maxUnknown : Word := 0xFFFFFFFF
def maxNonNeg : Word := 0x7FFFFFFF

/-- The word a constant renders to: the low bits of a narrow one. -/
def truncConst (int : BitVec 64) : Option Ty → Word
  | some (.int bits) =>
    if bits < 32 then int.setWidth 32 &&& (((1 : Word) <<< bits) - 1) else int.setWidth 32
  | _ => int.setWidth 32

/-- `constMax`. -/
def constMax (int : BitVec 64) : Option Ty → Word
  | some (.int bits) =>
    if 1 ≤ bits ∧ bits < 32 then int.setWidth 32 &&& (((1 : Word) <<< bits) - 1) else int.setWidth 32
  | _ => int.setWidth 32

/-- `typeMax`: a narrow integer is bounded by its storage width. -/
def typeMax : Option Ty → Word
  | some (.int bits) =>
    if bits < 1 ∨ 32 ≤ bits then maxUnknown
    else
      let b := (bits + 7) / 8 * 8
      if 32 ≤ b then maxUnknown else ((1 : Word) <<< b) - 1
  | _ => maxUnknown

structure FactSet where
  max : String → Option Word
  blk : List (String → Option Word)

/-- The smaller of a bound and one that may be known. -/
def tighten (m : Word) : Option Word → Word
  | some b => if b < m then b else m
  | none => m

/-- `boundAt`: the bound of an operand as seen from block `bi`. -/
def FactSet.boundAt (fs : FactSet) (bi : Nat) : Value → Word
  | .const int typ => constMax int typ
  | .loc name typ =>
    let m := tighten (typeMax typ) (fs.max name)
    match fs.blk[bi]? with
    | some known => tighten m (known name)
    | none => m
  | .global _ _ => maxUnknown
  | .func _ _ => maxUnknown

/-- The flags `factNonNeg` and `factBool`. -/
structure Facts where
  nonNeg : Bool
  bool : Bool
deriving DecidableEq, Repr

def factsOfMax (m : Word) : Facts :=
  if m ≤ 1 then ⟨true, true⟩
  else if m ≤ maxNonNeg then ⟨true, false⟩
  else ⟨false, false⟩

/-- `factSet.at`. -/
def FactSet.factsAt (fs : FactSet) (bi : Nat) (v : Value) : Facts := factsOfMax (fs.boundAt bi v)

/-! ## Operands -/

/-- The globals that stand for hardware registers. -/
def hwMMIO (name : String) : Option String :=
  if name = "__dma_uart_dr" then some "uartdr"
  else if name = "__dma_uart_fr" then some "uartfr"
  else if name = "__dma_timerawl" then some "timerawl"
  else if name = "__dma_timerawh" then some "timerawh"
  else none

def sanitize (s : String) : String :=
  s.map fun r => if r = '_' || r.isAlphanum then r else '_'

def funcSym (name : String) : String := "f_" ++ sanitize name
def globalSym (name : String) : String := "g_" ++ sanitize name

/-- What a function's context knows about where values are. -/
structure Names where
  isFunc : String → Bool
  fwd : String → Option Opnd
  allocas : String → Option String
  constAddr : String → Option (String × Word)
  word : String → String

namespace Names

variable (ns : Names)

/-- The address literal of a global or a function. -/
def globalOperand (name : String) (off : Word) : Opnd :=
  if ns.isFunc name then .code (funcSym name) off else .addr (.word (globalSym name)) off

/-- `op`: a value as an operand that reads as it. -/
def op : Value → Except Error Opnd
  | .const int typ => .ok (.num (truncConst int typ))
  | .global name off | .func name off =>
    if hwMMIO name ≠ none then .error (.hardwareAddress name) else .ok (ns.globalOperand name off)
  | .loc name _ =>
    match ns.fwd name with
    | some s => .ok s
    | none =>
      match ns.allocas name with
      | some a => .ok (.addr (.word a) 0)
      | none =>
        match ns.constAddr name with
        | some (sym, off) => .ok (.addr (.word sym) off)
        | none => .ok (.cell (.word (ns.word name)) 0)

end Names

end DmaCpu.Cc
