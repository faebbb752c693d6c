-- SUMMARY: Pass 1 of the assembler: sizes, symbols and the literal pool.
import DmaCpu.Dmaasm.Source

/-!
# Layout

Pass 1 walks the statements with two offsets, one for text and one for data, and
gives every label the offset it finds. It interns every literal that pass 2 will
need, so that the pool has its place before anything is emitted. What the scan of an
instruction does to the tables is listed as `Act`s, and done afterwards.
-/
namespace DmaCpu.Dmaasm

open Emu Function

/-! ## The instruction set -/

inductive Mnem where
  | move
  | add
  | sub
  | or
  | xor
  | and
  | andn
  | shl
  | mulc
  | jump
  | jumpr
  | jneg
  | jsign
  | jeq
  | jlt
  | jltu
  | jbool
  | call
  | ret
  | gpio
  | halt
  | nop
  | safepoint
deriving DecidableEq, Repr

namespace Mnem

def ofString : String → Option Mnem
  | "move" => some move
  | "add" => some add
  | "sub" => some sub
  | "or" => some or
  | "xor" => some xor
  | "and" => some and
  | "andn" => some andn
  | "shl" => some shl
  | "mulc" => some mulc
  | "jump" => some jump
  | "jumpr" => some jumpr
  | "jneg" => some jneg
  | "jsign" => some jsign
  | "jeq" => some jeq
  | "jlt" => some jlt
  | "jltu" => some jltu
  | "jbool" => some jbool
  | "call" => some call
  | "ret" => some ret
  | "gpio" => some gpio
  | "halt" => some halt
  | "nop" => some nop
  | "safepoint" => some safepoint
  | _ => none

/-- The least and the greatest number of arguments. -/
def arity : Mnem → Nat × Nat
  | move => (2, 6)
  | add | sub | or | xor | and | andn | mulc | jneg | jsign | jbool => (3, 3)
  | shl | gpio => (2, 2)
  | jump | jumpr | call => (1, 1)
  | jeq | jlt | jltu => (4, 4)
  | ret | halt | nop | safepoint => (0, 0)

/-- The number of classic blocks. -/
def blocks : Mnem → Nat
  | move | jump | jumpr | ret | gpio | halt | nop => 1
  | add | or | xor | andn | shl | mulc => 3
  | sub => 5
  | and | jneg | jbool => 6
  | jsign => 4
  | jeq => 12
  | jlt | jltu => 16
  | call | safepoint => 2

/-- `terminators`: after these execution does not go on with the next record. -/
def terminates : Mnem → Bool
  | jump | jumpr | jneg | jsign | jeq | jlt | jltu | jbool | ret | halt => true
  | _ => false

end Mnem

/-- `moveFlags`. -/
structure MoveFlags where
  ctrlExtra : Word := 0
  size : Word := ctrlSize32
  count : Word := 1
  dyn : Bool := false
  words : Word := 0
  sized : Bool := false

/-- The number behind `name=`, if that is how the flag begins. -/
def numberAfter (name s : String) : Option (Option Word) :=
  if name.toList.isPrefixOf s.toList then
    some (parseNum (String.ofList (s.toList.drop name.length)))
  else none

namespace Options

variable (o : Options)

def moveFlag (line : Nat) (f : MoveFlags) (s : String) : Except AsmError MoveFlags :=
  match s with
  | "sniff" => .ok { f with ctrlExtra := f.ctrlExtra ||| o.variant.ctrlSniffEn }
  | "bswap" => .ok { f with ctrlExtra := f.ctrlExtra ||| o.variant.ctrlBswap }
  | "incrr" => .ok { f with ctrlExtra := f.ctrlExtra ||| ctrlIncrRead }
  | "incrw" => .ok { f with ctrlExtra := f.ctrlExtra ||| o.variant.ctrlIncrWrite }
  | "size8" => .ok { f with size := ctrlSize8, sized := true }
  | "size16" => .ok { f with size := ctrlSize16, sized := true }
  | "dyncount" => if o.compact then .ok { f with dyn := true } else .error (.compactOnly line)
  | _ =>
    match numberAfter "count=" s, numberAfter "wcount=" s with
    | some n, _ =>
      match n with
      | some v => if v = 0 then .error (.badCount line s) else .ok { f with count := v }
      | none => .error (.badCount line s)
    | none, some n =>
      match n with
      | some v => if v = 0 then .error (.badWordCount line s) else .ok { f with words := v }
      | none => .error (.badWordCount line s)
    | none, none => .error (.unknownFlag line s)

/-- `parseMoveFlags`. -/
def parseMoveFlags (line : Nat) (args : List String) : Except AsmError MoveFlags :=
  (args.foldlM (o.moveFlag line) {}).bind fun f =>
    if f.words = 0 then .ok f
    else if f.sized ∨ f.count ≠ 1 ∨ f.dyn then .error (.wcountExcludes line)
    else if o.compact then .ok { f with size := ctrlSize8, count := 4 * f.words }
    else .ok { f with size := ctrlSize32, count := f.words }

/-- The CTRL word of a move. -/
def moveCtrl (f : MoveFlags) : Word :=
  (o.cfg.execCtrl o.variant &&& ~~~ctrlSize32) ||| f.size ||| f.ctrlExtra

def gpioPins : Nat :=
  match o.variant with
  | .rp2040 => 30
  | .rp2350 => 48

/-- `GPIOOutCtrl`. -/
def gpioOutCtrl (high : Bool) : Word :=
  let out : Word := if high then 3 else 2
  match o.variant with
  | .rp2040 => 3 <<< 12 ||| out <<< 8
  | .rp2350 => 3 <<< 14 ||| out <<< 12

/-- `GPIOCtrlAddr`. -/
def gpioCtrlAddr (pin : Word) : Word :=
  let ioBank0Base : Word := match o.variant with
    | .rp2040 => 0x40014000
    | .rp2350 => 0x40028000
  ioBank0Base + pin * 8 + 4

end Options

/-! ## The scan of an instruction -/

/-- A pair of slots for a dispatch on a sign. -/
structure Jpair where
  neg : String
  nonneg : String
  line : Nat
deriving DecidableEq, Repr

/-- `jpairName`. -/
def jpairName (i : Nat) : String := "__JP" ++ Nat.repr i

/-- What a scan does to the tables. -/
inductive Act where
  | intern (op : Operand)
  /-- `genTextLabel`. -/
  | label (off : Word)
  | pair (p : Jpair)
deriving DecidableEq, Repr

/-- Where the scan finds itself. -/
structure ScanCtx where
  opts : Options
  line : Nat
  hasRegs : Bool
  textOff : Word
  npairs : Nat

namespace ScanCtx

variable (c : ScanCtx)

/-- The literal of an operand, if it is one. -/
def internArg (s : String) : List Act :=
  match c.opts.parseOperand c.line s with
  | .ok op => if op.kind = .lit then [.intern op] else []
  | .error _ => []

def scan (c : ScanCtx) : List String → Except AsmError (List Act)
  | [] => .ok []
  | s :: ss => (c.opts.parseOperand c.line s).bind fun _ => (c.scan ss).map (c.internArg s ++ ·)

def needRegs {α : Type} (what : String) (x : Except AsmError α) : Except AsmError α :=
  if c.hasRegs then x else .error (.requiresRegs c.line what)

/-- A plain read of `SNIFF_DATA` into an argument. -/
def rd (dst : String) : Cshape :=
  { bank := .plain, count := 1, srcSniff := true, dstPc := c.opts.opIsPc c.line dst }

end ScanCtx

/-- One transfer on a bank. -/
def sh (b : Bank) : Cshape := { bank := b, count := 1 }

def rdPc : Cshape := { bank := .plain, count := 1, srcSniff := true, dstPc := true }

def jmp : Cshape := { bank := .plain, count := 1, dstPc := true }

/-- The binary method, most significant bit first: double, and add where a bit is set.
    `b` bits are left. -/
def mulcShapes (k : Word) : Bool → Nat → List Cshape
  | _, 0 => []
  | started, b + 1 =>
    (if started then [sh .sniff] else []) ++ (if k.getLsbD b then [sh .sniff] else []) ++
      mulcShapes k (started || k.getLsbD b) b

/-- The shapes of a dispatch on the sign of a word that is byte-swapped in the
    accumulator. -/
def signTailShapes : List Cshape := [sh .plain, sh .sniff, rdPc]

namespace ScanCtx

variable (c : ScanCtx)

/-- `scanShapes` for the instructions that dispatch on a sign. -/
def scanSign (p : Jpair) (vals : List String) (shapes : List Cshape) (acts : List Act) :
    Except AsmError (List Cshape × List Act) :=
  (c.scan vals).map fun scanned =>
    (shapes, .intern (.litNum 0xFFFFFF7F) :: acts ++
      [.intern (.litSym p.neg), .intern (.litSym p.nonneg), .intern (.litSym (jpairName c.npairs)),
        .pair p] ++ scanned)

/-- `scanShapes` for `jlt` and `jltu`. -/
def scanLess (p : Jpair) (vals : List String) : Except AsmError (List Cshape × List Act) :=
  c.scanSign p vals
    ([sh .plain, sh .plain, c.rd "at",
      sh .plain, sh .plain, sh .sniff, sh .sniff, c.rd "at",
      sh .plain, sh .plain, c.rd "at",
      sh .plain, sh .plain, sh .plain,
      { bank := .bswap, count := 1, srcSniff := true },
      sh .plain] ++ signTailShapes)
    [.intern (.litNum 0xFFFFFFFF), .intern (.litNum 1)]

/-- `scanShapes`: the shapes of an instruction, and what it needs in the tables. -/
def scanShapes (mnem : Mnem) (args : List String) : Except AsmError (List Cshape × List Act) :=
  let compact := c.opts.compact
  let arg (i : Nat) : String := args.getD i ""
  let num (v : Word) : Act := .intern (.litNum v)
  let ref (i : Nat) : Act := .intern (.litSym (arg i))
  match mnem with
  | .move =>
    (c.opts.parseMoveFlags c.line (args.drop 2)).bind fun f =>
      if compact then
        match classifyCtrl c.opts.cfg c.opts.variant (c.opts.moveCtrl f) with
        | none => .error (.notABank c.line (c.opts.moveCtrl f))
        | some bank =>
          let shape : Cshape :=
            { bank := bank
              count := f.count
              srcSniff := c.opts.opIsSniff c.line (arg 0)
              dstPc := c.opts.opIsPc c.line (arg 1)
              dyn := f.dyn }
          (c.scan [arg 0, arg 1]).map fun acts => ([shape], c.internArg (arg 0) ++ c.internArg (arg 1) ++ acts)
      else (c.scan [arg 0, arg 1]).map fun acts => ([], acts)
  | .add =>
    c.needRegs "add" <| (c.scan args).map fun acts =>
      ([sh .plain, sh .sniff, c.rd (arg 2)], c.internArg (arg 2) ++ acts)
  | .or => c.needRegs "or" <| (c.scan args).map fun acts =>
      ([sh .plain, sh .plain, c.rd (arg 2)], c.internArg (arg 2) ++ acts)
  | .xor => c.needRegs "xor" <| (c.scan args).map fun acts =>
      ([sh .plain, sh .plain, c.rd (arg 2)], c.internArg (arg 2) ++ acts)
  | .andn => c.needRegs "andn" <| (c.scan args).map fun acts =>
      ([sh .plain, sh .plain, c.rd (arg 2)], c.internArg (arg 2) ++ acts)
  | .and =>
    c.needRegs "and" <| (c.scan args).map fun acts =>
      ([sh .plain, sh .plain, c.rd "at", sh .plain, sh .plain, c.rd (arg 2)],
        num 0xFFFFFFFF :: c.internArg (arg 2) ++ acts)
  | .shl =>
    c.needRegs "shl" <| (c.scan args).map fun acts =>
      ([sh .plain, sh .sniff, c.rd (arg 1)], c.internArg (arg 1) ++ acts)
  | .sub =>
    c.needRegs "sub" <| (c.scan args).map fun acts =>
      ([sh .plain, sh .plain, sh .sniff, sh .sniff, c.rd (arg 2)],
        num 0xFFFFFFFF :: num 1 :: c.internArg (arg 2) ++ acts)
  | .mulc =>
    c.needRegs "mulc" <|
      match parseNum (arg 1) with
      | none => .error (.mulcConstant c.line (arg 1))
      | some k =>
        (c.scan [arg 0, arg 2]).map fun acts =>
          if compact then (sh .plain :: mulcShapes k false 32 ++ [c.rd (arg 2)], c.internArg (arg 2) ++ acts)
          else ([], acts)
  | .jump =>
    match parseNum (arg 0) with
    | some v => .ok ([jmp], [num v])
    | none => .ok ([jmp], [ref 0])
  | .jumpr =>
    let shape : Cshape :=
      { bank := .plain, count := 1, srcSniff := c.opts.opIsSniff c.line (arg 0), dstPc := true }
    let scanned := (c.scan [arg 0]).map fun acts => ([shape], c.internArg (arg 0) ++ acts)
    if compact ∧ c.opts.opIsSniff c.line (arg 0) then c.needRegs "jumpr %sniff" scanned else scanned
  | .jneg =>
    let body : List Cshape :=
      { bank := .bswap, count := 1, srcSniff := c.opts.opIsSniff c.line (arg 0) } :: signTailShapes
    c.needRegs "jneg" <| (c.scan [arg 0]).map fun acts =>
      if compact then
        (body ++ [jmp, jmp], num 0xFFFFFFF7 :: c.internArg (arg 0) ++
          .label (c.textOff + planPrefix body * 8) :: ref 1 :: ref 2 :: acts)
      else ([], num 0xFFFFFFEF :: .label (c.textOff + 64) :: ref 1 :: ref 2 :: acts)
  | .jsign =>
    c.needRegs "jsign" <| c.scanSign ⟨arg 1, arg 2, c.line⟩ [arg 0]
      ({ bank := .bswap, count := 1, srcSniff := c.opts.opIsSniff c.line (arg 0) } :: signTailShapes)
      (c.internArg (arg 0))
  | .jeq =>
    c.needRegs "jeq" <| c.scanSign ⟨arg 3, arg 2, c.line⟩ [arg 0, arg 1]
      ([sh .plain, sh .plain, sh .sniff, sh .sniff, c.rd "at",
        sh .plain, sh .plain, sh .sniff, c.rd "at",
        sh .plain, sh .plain,
        { bank := .bswap, count := 1, srcSniff := true },
        sh .plain] ++ signTailShapes)
      [num 0xFFFFFFFF, num 1]
  | .jlt =>
    c.needRegs "jlt" <| c.scanLess ⟨arg 2, arg 3, c.line⟩ [arg 0, arg 1]
  | .jltu =>
    c.needRegs "jltu" <| c.scanLess ⟨arg 2, arg 3, c.line⟩ [arg 0, arg 1]
  | .jbool =>
    let body : List Cshape :=
      [sh .plain, sh .sniff, sh .sniff, sh .sniff, sh .sniff, sh .sniff, rdPc]
    c.needRegs "jbool" <| (c.scan [arg 0]).map fun acts =>
      if compact then
        (body ++ [jmp, jmp], .label (c.textOff + planPrefix body * 8) :: ref 1 :: ref 2 :: acts)
      else ([], .label (c.textOff + 64) :: ref 1 :: ref 2 :: acts)
  | .call =>
    c.needRegs "call" <|
      .ok ([sh .plain, jmp], [.label (c.textOff + if compact then 16 else 32), ref 0])
  | .ret => c.needRegs "ret" <| .ok ([jmp], [])
  | .safepoint =>
    c.needRegs "safepoint" <|
      .ok ([sh .plain, jmp], [.label (c.textOff + if compact then 16 else 32)])
  | .gpio =>
    match parseNum (arg 0) with
    | none => .error (.gpioPin c.line (arg 0))
    | some pin =>
      if c.opts.gpioPins ≤ pin.toNat then .error (.gpioPin c.line (arg 0))
      else
        match arg 1 with
        | "hi" => .ok ([sh .plain], [num (c.opts.gpioOutCtrl true)])
        | "lo" => .ok ([sh .plain], [num (c.opts.gpioOutCtrl false)])
        | s => .error (.gpioLevel c.line s)
  | .nop => c.needRegs "nop" <| .ok ([{ bank := .plain, count := 0 }], [])
  | .halt => .ok ([{ halt := true }], [])

end ScanCtx

/-! ## The tables -/

structure Symbol where
  text : Bool
  off : Word
deriving DecidableEq, Repr

/-- `writeStmt`: the value is a number, or the address of a symbol. -/
structure WriteStmt where
  line : Nat
  addr : Word
  valNum : Word := 0
  valSym : String := ""
deriving DecidableEq, Repr

/-- `asm`, as pass 1 fills it in. -/
structure Asm where
  textOff : Word := 0
  dataOff : Word := 0
  /-- A `.ramtext` directive was seen, at `splitOff`. -/
  split : Bool := false
  splitOff : Word := 0
  syms : String → Option Symbol := fun _ => none
  /-- The keys of the pool in the order of their first use. -/
  litOrder : List String := []
  lits : String → Option Operand := fun _ => none
  litOffs : String → Option Word := fun _ => none
  litText : String → Option Word := fun _ => none
  ramLits : String → Bool := fun _ => false
  sysLits : String → Bool := fun _ => false
  hasRegs : Bool := false
  entry : String := ""
  noSniff : Bool := false
  writes : List WriteStmt := []
  genLabel : Nat := 0
  jpairs : List Jpair := []
  payloadDelta : Word → Option Word := fun _ => none
  /-- The current segment is `.data`. -/
  inData : Bool := false
  lastMnem : String := ""

namespace Asm

def setSym (a : Asm) (name : String) (sym : Symbol) : Asm :=
  { a with syms := update a.syms name (some sym) }

/-- `internLit`. -/
def internLit (a : Asm) (op : Operand) : Asm :=
  let k := litKey op
  let a := if a.split then { a with ramLits := update a.ramLits k true } else a
  match a.lits k with
  | some _ => a
  | none => { a with lits := update a.lits k (some op), litOrder := a.litOrder ++ [k] }

/-- A literal that the machine itself reads: it stays in the data segment. -/
def internSys (a : Asm) (v : Word) : Asm :=
  let a := a.internLit (.litNum v)
  { a with sysLits := update a.sysLits (litKey (.litNum v)) true }

def genName (n : Nat) : String := "__L" ++ Nat.repr n

/-- `genTextLabel`. -/
def genTextLabel (a : Asm) (off : Word) : Asm :=
  let n := a.genLabel + 1
  ({ a with genLabel := n }.setSym (genName n) ⟨true, off⟩).internLit (.litSym (genName n))

def act (a : Asm) : Act → Asm
  | .intern op => a.internLit op
  | .label off => a.genTextLabel off
  | .pair p => { a with jpairs := a.jpairs ++ [p] }

/-- `internPlanLits`. -/
def internPlanLits (a : Asm) (shapes : List Cshape) : Asm :=
  ((planInstr shapes).filterMap Prim.literal?).foldl internSys a

end Asm

/-- The register file of ABI v0. -/
def abiRegs : List String :=
  (List.range 16).map (fun i => "r" ++ Nat.repr i) ++
    ["lr", "sp", "zero", "null", "at", "dispatch", "irqresume", "at2"] ++
    (List.range 8).map fun i => "__abi_rsvd" ++ Nat.repr (24 + i)

/-! ## Pass 1 -/

/-- A statement with what pass 1 notes on it: the number of its records, and whether
    a `.word` is in text. -/
structure Laid where
  stmt : Stmt
  crecs : Word := 0
  inText : Bool := false
deriving DecidableEq, Repr

namespace Asm

variable (o : Options)

/-- `defineLabel`. -/
def defineLabel (a : Asm) (line : Nat) (name : String) : Except AsmError Asm :=
  match a.syms name with
  | some _ => .error (.duplicateLabel line name)
  | none => .ok (a.setSym name (if a.inData then ⟨false, a.dataOff⟩ else ⟨true, a.textOff⟩))

/-- The registers one after the other. A label of the same name is overwritten. -/
def layRegs (a : Asm) : Asm :=
  abiRegs.foldl (fun a r => { a.setSym r ⟨false, a.dataOff⟩ with dataOff := a.dataOff + 4 })
    { a with hasRegs := true }

def layWrite (a : Asm) (s : Stmt) : Except AsmError Asm :=
  match s.args with
  | [addr, value] =>
    (o.parseOperand s.line addr).bind fun op =>
      if op.kind ≠ .mmio ∧ op.kind ≠ .abs then .error (.writeAddr s.line)
      else
        match parseNum value with
        | some v => .ok { a with writes := a.writes ++ [⟨s.line, op.num, v, ""⟩] }
        | none =>
          if validName value then .ok { a with writes := a.writes ++ [⟨s.line, op.num, 0, value⟩] }
          else .error (.writeValue s.line value)
  | _ => .error (.writeArgs s.line)

/-- A directive of `layout`. -/
def layDir (a : Asm) (s : Stmt) : Except AsmError (Asm × Laid) :=
  let plain (a : Asm) : Asm × Laid := (a, { stmt := s })
  match s.dir with
  | "text" => if a.split then .error (.textAfterRamtext s.line) else .ok (plain { a with inData := false })
  | "ramtext" =>
    if o.ramTextBase = 0 then .error (.ramtextBase s.line)
    else if a.split then .error (.duplicateRamtext s.line)
    else if a.lastMnem ≠ "" ∧ !(Mnem.ofString a.lastMnem).any Mnem.terminates then
      .error (.fallsThrough s.line a.lastMnem)
    else .ok (plain { a with split := true, splitOff := a.textOff, inData := false })
  | "data" => .ok (plain { a with inData := true })
  | "entry" =>
    match s.args with
    | [name] => .ok (plain { a with entry := name })
    | _ => .error (.entryArgs s.line)
  | "word" =>
    if s.args = [] then .error (.wordArgs s.line)
    else if a.inData then .ok (plain { a with dataOff := a.dataOff + BitVec.ofNat 32 (4 * s.args.length) })
    else
      .ok ({ a with textOff := a.textOff + BitVec.ofNat 32 (4 * s.args.length) },
        { stmt := s, inText := true })
  | "space" =>
    match a.inData, s.args with
    | true, [n] =>
      match parseNum n with
      | some n => if n % 4 ≠ 0 then .error (.spaceSize s.line) else .ok (plain { a with dataOff := a.dataOff + n })
      | none => .error (.spaceSize s.line)
    | _, _ => .error (.spaceArgs s.line)
  | "regs" =>
    if !a.inData then .error (.regsOutsideData s.line)
    else if a.hasRegs then .error (.duplicateRegs s.line)
    else .ok (plain a.layRegs)
  | "write" => (a.layWrite o s).map plain
  | "nosniffinit" => .ok (plain { a with noSniff := true })
  | dir => .error (.unknownDirective s.line dir)

/-- The place of an instruction whose shapes are known. -/
def placeInstr (a : Asm) (s : Stmt) (mnem : Mnem) (shapes : List Cshape) : Asm × Word :=
  if o.compact then
    let n := planCount shapes
    let a := a.internPlanLits shapes
    ({ a with
        payloadDelta := update a.payloadDelta a.textOff (some (planPayloadDelta shapes))
        textOff := a.textOff + 8 * n
        lastMnem := s.mnem }, n)
  else ({ a with textOff := a.textOff + 16 * BitVec.ofNat 32 mnem.blocks, lastMnem := s.mnem }, 0)

/-- An instruction of `layout`. -/
def layInstr (a : Asm) (s : Stmt) : Except AsmError (Asm × Laid) :=
  if a.inData then .error (.outsideText s.line)
  else
    match Mnem.ofString s.mnem with
    | none => .error (.unknownInstruction s.line s.mnem)
    | some mnem =>
      let (lo, hi) := mnem.arity
      if s.args.length < lo ∨ hi < s.args.length then
        .error (.arity s.line s.mnem lo hi s.args.length)
      else
        let c : ScanCtx := ⟨o, s.line, a.hasRegs, a.textOff, a.jpairs.length⟩
        (c.scanShapes mnem s.args).map fun (shapes, acts) =>
          let (a, n) := (acts.foldl act a).placeInstr o s mnem shapes
          (a, { stmt := s, crecs := n })

def layStmt (a : Asm) (s : Stmt) : Except AsmError (Asm × Laid) :=
  if s.label ≠ "" then (a.defineLabel s.line s.label).map fun a => (a, { stmt := s })
  else if s.dir ≠ "" then a.layDir o s
  else if s.mnem ≠ "" then a.layInstr o s
  else .ok (a, { stmt := s })

/-- The loop of `layout`. -/
def layStmts (a : Asm) : List Stmt → Except AsmError (Asm × List Laid)
  | [] => .ok (a, [])
  | s :: ss =>
    (a.layStmt o s).bind fun (a, l) =>
      (a.layStmts ss).map fun (a, ls) => (a, l :: ls)

end Asm

/-- The size of a slot of the arena, and the number of pairs in a bank of it. -/
def Options.slotSize (o : Options) : Nat := if o.compact then 8 else 16

def Options.pairsPerBank (o : Options) : Nat := if o.compact then 16 else 8

namespace Asm

variable (o : Options)

/-- The offset of pair `i` in the arena. -/
def arenaOff (i : Nat) : Word :=
  BitVec.ofNat 32 (i / o.pairsPerBank * 256 + i % o.pairsPerBank * o.slotSize)

/-- The arena behind the last instruction. -/
def layArena (a : Asm) : Asm :=
  let base := a.textOff
  let n := a.jpairs.length
  let a := (List.range n).foldl (fun a i => a.setSym (jpairName i) ⟨true, base + arenaOff o i⟩) a
  { a with textOff := a.textOff + BitVec.ofNat 32 ((n + o.pairsPerBank - 1) / o.pairsPerBank * 256) }

/-- A literal that goes to the end of the text. -/
def isCold (a : Asm) (k : String) : Bool :=
  o.poolText && a.split && !o.hotLits k && !a.ramLits k && !a.sysLits k

/-- The pool, with `cold` the offset behind the text. -/
def layPool (a : Asm) (cold : Word) : List String → Asm
  | [] => a
  | k :: ks =>
    if a.isCold o k then
      layPool { a with litText := update a.litText k (some cold) } (cold + 4) ks
    else
      layPool { a with litOffs := update a.litOffs k (some a.dataOff), dataOff := a.dataOff + 4 }
        cold ks

/-- What `layout` does after its loop. -/
def finish (a : Asm) : Except AsmError Asm :=
  if a.entry = "" then .error .missingEntry
  else
    let a := a.layArena o
    if o.compact && !a.hasRegs then .error .compactRequiresRegs
    else
      let a := if o.compact then a.internSys (Compact.window Compact.plain) else a
      let a := a.layPool o (if a.split then a.splitOff else a.textOff) a.litOrder
      match a.syms a.entry with
      | some sym =>
        if !sym.text then .error (.entryNotText a.entry)
        else if sym.off.toNat % o.slotSize ≠ 0 then .error (.entryNotAligned a.entry)
        else .ok a
      | none => .error (.entryNotText a.entry)

/-- `layout`. -/
def layout (ss : List Stmt) : Except AsmError (Asm × List Laid) :=
  (({} : Asm).layStmts o ss).bind fun (a, ls) => (a.finish o).map fun a => (a, ls)

end Asm

end DmaCpu.Dmaasm
