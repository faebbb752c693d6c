-- SUMMARY: The planner of `compact.go`: the records that a block becomes in the compact encoding.
import DmaCpu.Emu.Compact
import DmaCpu.Emu.Classic

/-!
# The planner

A compact record has no CTRL word and no count. Both belong to the bank that runs
it, so the planner follows which bank is selected and what the counts are, and puts
switch and count records in front of a block where it needs another bank or another
count. An instruction begins and ends with the plain bank selected and all counts 1.
-/
namespace DmaCpu.Dmaasm

open Emu

/-- The bank channels, `CompactPlain` to `CompactSize16`. -/
inductive Bank where
  | plain
  | size8
  | size8W
  | size8RW
  | sniff
  | bswap
  | size16
deriving DecidableEq, Repr

namespace Bank

def ch : Bank → Nat
  | plain => Compact.plain
  | size8 => Compact.size8
  | size8W => Compact.size8W
  | size8RW => Compact.size8RW
  | sniff => Compact.sniff
  | bswap => Compact.bswap
  | size16 => Compact.size16

/-- The banks by channel number. -/
def all : List Bank := [plain, size8, size8W, size8RW, sniff, bswap, size16]

def autoReturn (b : Bank) : Bool := Compact.autoReturn b.ch

end Bank

/-! ## Shapes -/

/-- `cshape`: a block, as far as the planner goes. -/
structure Cshape where
  bank : Bank := .plain
  count : Word := 0
  /-- The source is `SNIFF_DATA`. -/
  srcSniff : Bool := false
  /-- The destination is the program counter. -/
  dstPc : Bool := false
  /-- The count is patched at run time. -/
  dyn : Bool := false
  halt : Bool := false
  /-- The count that the record itself leaves, unless 0. No macro sets it. -/
  cntAfter : Word := 0
deriving DecidableEq, Repr

/-- `classifyCtrl`: the bank for the CTRL word of a block, if there is one. -/
def classifyCtrl (cfg : FetchExecConfig) (v : Variant) (ctrl : Word) : Option Bank :=
  let sizeField := ctrlSize16 ||| ctrlSize32
  let base := cfg.execCtrl v &&& ~~~sizeField
  let size := ctrl &&& sizeField
  let extras := ctrl &&& ~~~base &&& ~~~sizeField
  let sniff := extras &&& v.ctrlSniffEn != 0
  let bswap := extras &&& v.ctrlBswap != 0
  let incrR := extras &&& ctrlIncrRead != 0
  let incrW := extras &&& v.ctrlIncrWrite != 0
  let rest := extras &&& ~~~(v.ctrlSniffEn ||| v.ctrlBswap ||| ctrlIncrRead ||| v.ctrlIncrWrite)
  if rest ≠ 0 ∨ base &&& ~~~ctrl ≠ 0 then none
  else if sniff && !bswap && !incrR && !incrW && size == ctrlSize32 then some .sniff
  else if bswap && !sniff && !incrR && !incrW && size == ctrlSize32 then some .bswap
  else if !sniff && !bswap && size == ctrlSize8 then
    match incrR, incrW with
    | false, false => some .size8
    | false, true => some .size8W
    | true, true => some .size8RW
    | true, false => none
  else if !sniff && !bswap && !incrR && !incrW && size == ctrlSize16 then some .size16
  else if !sniff && !bswap && !incrR && !incrW && size == ctrlSize32 then some .plain
  else none

/-! ## The planner -/

/-- `prim`: a record. -/
inductive Prim where
  /-- The block's own record. -/
  | record
  /-- Selects another bank. -/
  | switch (b : Bank)
  /-- Sets the count of a bank. -/
  | count (b : Bank) (k : Word)
  /-- From `SNIFF_DATA` to `at`, on the sniff bank. -/
  | stageRead
  /-- From `at` to the program counter, on the plain bank. -/
  | stagePush
  | halt
deriving DecidableEq, Repr

/-- `cstate`: the selected bank and the counts, where `dirty` marks one that is not
    known. -/
structure Cstate where
  bank : Bank
  cnt : Bank → Word
  dirty : Bank → Bool

namespace Cstate

/-- `newCstate`: the canonical state. -/
def init : Cstate := ⟨.plain, fun _ => 1, fun _ => false⟩

def setCnt (st : Cstate) (b : Bank) (k : Word) : Cstate :=
  { st with cnt := Function.update st.cnt b k, dirty := Function.update st.dirty b false }

/-- The count of bank `b` is not `k`, as far as is known. -/
def differs (st : Cstate) (b : Bank) (k : Word) : Bool := st.cnt b != k || st.dirty b

def switchTo (st : Cstate) (b : Bank) : List Prim × Cstate :=
  if st.bank = b then ([], st) else ([.switch b], { st with bank := b })

/-- A plain read of `SNIFF_DATA` stays on the sniff bank while its count is known to
    be 1. -/
def defers (st : Cstate) (s : Cshape) (k : Word) : Bool :=
  s.srcSniff && st.bank == .sniff && s.bank == .plain && k == 1 && !s.dyn &&
    st.cnt .sniff == 1 && !st.dirty .sniff

/-- Give bank `b` the count `k`, from the plain bank. -/
def reload (st : Cstate) (b : Bank) (k : Word) : List Prim × Cstate :=
  let (ps, st) := st.switchTo .plain
  (ps ++ [.count b k], st.setCnt b k)

/-- What is known after the record of a block. -/
def after (st : Cstate) (s : Cshape) : Cstate :=
  let st :=
    if s.dyn then { st with dirty := Function.update st.dirty s.bank true }
    else if s.cntAfter ≠ 0 then st.setCnt s.bank s.cntAfter
    else st
  if s.bank.autoReturn then { st with bank := .plain } else st

/-- The records of one block. -/
def plan (st : Cstate) (s : Cshape) : List Prim × Cstate :=
  if s.halt then ([.halt], st)
  else
    -- a zero count is a classic NOP, here a single transfer
    let k := if s.count = 0 then 1 else s.count
    if st.defers s k then
      if s.dstPc then
        let (ps, st) := st.switchTo .plain
        (.stageRead :: ps ++ [.stagePush], st)
      else ([.record], st)
    else
      let (ps₁, st) := if !s.dyn && s.cntAfter == 0 && st.differs s.bank k then st.reload s.bank k else ([], st)
      let (ps₂, st) := st.switchTo s.bank
      (ps₁ ++ ps₂ ++ [.record], st.after s)

/-- The records of a sequence of blocks. -/
def planAll (st : Cstate) : List Cshape → List Prim × Cstate
  | [] => ([], st)
  | s :: ss =>
    let (ps, st) := st.plan s
    let (qs, st) := st.planAll ss
    (ps ++ qs, st)

/-- `pCount` records for the banks whose count is not 1. -/
def restore (st : Cstate) : List Bank → List Prim × Cstate
  | [] => ([], st)
  | b :: bs =>
    if st.differs b 1 then
      let (ps, st) := (st.setCnt b 1).restore bs
      (.count b 1 :: ps, st)
    else st.restore bs

/-- `planSync`: back to the canonical state at the end of an instruction. -/
def planSync (st : Cstate) : List Prim × Cstate :=
  let (ps₁, st) :=
    if Bank.all.any fun b => st.differs b 1 then
      let (ps, st) := st.switchTo .plain
      let (qs, st) := st.restore Bank.all
      (ps ++ qs, st)
    else ([], st)
  let (ps₂, st) := st.switchTo .plain
  (ps₁ ++ ps₂, st)

end Cstate

/-- The records of an instruction, with those that end it. -/
def planInstr (shapes : List Cshape) : List Prim :=
  let (ps, st) := Cstate.init.planAll shapes
  ps ++ st.planSync.1

/-- `planCount`. -/
def planCount (shapes : List Cshape) : Word := BitVec.ofNat 32 (planInstr shapes).length

/-- `planPrefix`: without the records that end the instruction. -/
def planPrefix (shapes : List Cshape) : Word :=
  BitVec.ofNat 32 (Cstate.init.planAll shapes).1.length

/-- A record that carries a block, or its first half. -/
def Prim.isPayload : Prim → Bool
  | record | halt | stageRead => true
  | _ => false

/-- `planPayloadDelta`: the offset of the first record that carries a block. -/
def planPayloadDelta (shapes : List Cshape) : Word :=
  match (Cstate.init.planAll shapes).1.findIdx? Prim.isPayload with
  | some n => BitVec.ofNat 32 n * 8
  | none => 0

/-- The literals that the records of the planner read. -/
def Prim.literal? : Prim → Option Word
  | switch b => some (Compact.window b.ch)
  | count _ k => some k
  | _ => none

end DmaCpu.Dmaasm
