-- SUMMARY: Pass 2 of the assembler: segments, relocations, init writes and the image.
import DmaCpu.Dmaasm.Layout
import DmaCpu.Dmx.Image

/-!
# Emission

Pass 2 walks the statements again and writes words. An instruction is a list of
moves in both encodings; a classic one is a block for each, a compact one is what
the planner makes of them. The number of records is compared with what pass 1
reserved. Pass 2 parses operands again, which finds every literal in the pool.
-/
namespace DmaCpu.Dmaasm

open Emu

/-! ## The builder -/

/-- The segments of an image, the third one only with `.ramtext`. -/
inductive SegId where
  | text
  | data
  | rtext
deriving DecidableEq, Repr

def SegId.idx : SegId → Word
  | text => 0
  | data => 1
  | rtext => 2

/-- `img.Ptr`: an absolute address, or one in a segment. -/
inductive Ptr where
  | abs (addr : Word)
  | into (seg : SegId) (off : Word)
deriving DecidableEq, Repr

/-- `img.Builder`. -/
structure Builder where
  words : SegId → List Word := fun _ => []
  relocs : List Dmx.Reloc := []
  writes : List Dmx.Write := []

/-- The link address of a segment. -/
def Options.linkAddr (o : Options) : SegId → Word
  | .text => o.textBase
  | .data => o.dataBase
  | .rtext => o.ramTextBase

namespace Builder

variable (o : Options)

/-- The length of a segment in bytes. -/
def len (b : Builder) (s : SegId) : Word := BitVec.ofNat 32 (4 * (b.words s).length)

def word (b : Builder) (s : SegId) (v : Word) : Builder :=
  { b with words := Function.update b.words s (b.words s ++ [v]) }

def wordRef (b : Builder) (s ref : SegId) (off : Word) : Builder :=
  { b.word s (o.linkAddr ref + off) with relocs := b.relocs ++ [⟨s.idx, b.len s, ref.idx⟩] }

def ptr (b : Builder) (s : SegId) : Ptr → Builder
  | .abs addr => b.word s addr
  | .into ref off => b.wordRef o s ref off

def blockP (b : Builder) (s : SegId) (read write : Ptr) (count ctrl : Word) : Builder :=
  (((b.ptr o s read).ptr o s write).word s count).word s ctrl

def recordP (b : Builder) (s : SegId) (read write : Ptr) : Builder := (b.ptr o s read).ptr o s write

def addWrite (b : Builder) (addr value : Word) : Builder :=
  { b with writes := b.writes ++ [⟨addr, value, Dmx.refAbs⟩] }

def addWriteRef (b : Builder) (addr : Word) (ref : SegId) (off : Word) : Builder :=
  { b with writes := b.writes ++ [⟨addr, o.linkAddr ref + off, ref.idx⟩] }

end Builder

/-! ## Symbols -/

namespace Asm

variable (o : Options) (a : Asm)

/-- `symLoc`: the segment of a symbol and the offset in it. -/
def symLoc (sym : Symbol) (extra : Word) : SegId × Word :=
  let off := sym.off + extra
  if !sym.text then (.data, off)
  else if a.split ∧ a.splitOff ≤ off then (.rtext, off - a.splitOff)
  else (.text, off)

/-- Where the pool has a literal. -/
def litPtr (op : Operand) : Ptr :=
  match a.litText (litKey op) with
  | some off => .into .text off
  | none => .into .data ((a.litOffs (litKey op)).getD 0)

/-- `resolve`. -/
def resolve (line : Nat) (op : Operand) : Except AsmError Ptr :=
  match op.kind with
  | .mmio | .abs => .ok (.abs op.num)
  | .lit => .ok (a.litPtr op)
  | .sym =>
    match a.syms op.sym with
    | none => .error (.undefinedSymbol line op.sym)
    | some sym =>
      if op.blockField ∧ !sym.text then .error (.blockFieldOnData line op.sym)
      else
        let extra := op.field + if op.blockField ∧ o.compact then (a.payloadDelta sym.off).getD 0 else 0
        let (seg, off) := a.symLoc sym extra
        .ok (.into seg off)

/-- `symP`. -/
def symP (line : Nat) (name : String) : Except AsmError Ptr :=
  a.resolve o line { kind := .sym, sym := name }

end Asm

/-! ## Instructions as moves -/

/-- A block. -/
structure Mv where
  src : Ptr
  dst : Ptr
  count : Word
  ctrl : Word
  dyn : Bool := false
deriving DecidableEq, Repr

/-- What the emission of an instruction goes by: the tables, the line, and how many
    generated labels and pairs have been used. -/
structure EmitCtx where
  opts : Options
  asm : Asm
  line : Nat
  gen : Nat
  pair : Nat

namespace EmitCtx

variable (c : EmitCtx)

def execCtrl : Word := c.opts.cfg.execCtrl c.opts.variant
def sniffP : Ptr := .abs c.opts.variant.sniffDataAddr
def xorP : Ptr := .abs c.opts.variant.sniffDataXORAddr
def setP : Ptr := .abs c.opts.variant.sniffDataSetAddr
def clrP : Ptr := .abs c.opts.variant.sniffDataClrAddr
def pcP : Ptr := .abs c.opts.pcAddr

def symP (name : String) : Except AsmError Ptr := c.asm.symP c.opts c.line name

/-- The pointer of a symbol whose absence is not looked at. -/
def regP (name : String) : Ptr :=
  match c.symP name with
  | .ok p => p
  | .error _ => .abs 0

def nullP : Ptr := c.regP "null"
def zeroP : Ptr := c.regP "zero"

def litNumP (v : Word) : Ptr := c.asm.litPtr (.litNum v)
def litSymP (name : String) : Ptr := c.asm.litPtr (.litSym name)

def arg (s : String) : Except AsmError Ptr :=
  (c.opts.parseOperand c.line s).bind (c.asm.resolve c.opts c.line)

/-- `mv` with a plain, a sniffed and a byte-swapped transfer. -/
def mv (src dst : Ptr) : Mv := ⟨src, dst, 1, c.execCtrl, false⟩
def mvS (src dst : Ptr) : Mv := ⟨src, dst, 1, c.execCtrl ||| c.opts.variant.ctrlSniffEn, false⟩
def mvB (src dst : Ptr) : Mv := ⟨src, dst, 1, c.execCtrl ||| c.opts.variant.ctrlBswap, false⟩

/-- `signTail`. -/
def signTail : List Mv :=
  [c.mv (c.litNumP 0xFFFFFF7F) c.clrP, c.mvS (c.litSymP (jpairName c.pair)) c.nullP, c.mv c.sniffP c.pcP]

/-- `signTailC`. -/
def signTailC (atP : Ptr) : List Mv := c.mv atP c.sniffP :: c.signTail

/-- `subIntoSniff`. -/
def subIntoSniff (aP bP : Ptr) : List Mv :=
  [c.mv bP c.sniffP, c.mv (c.litNumP 0xFFFFFFFF) c.xorP, c.mvS (c.litNumP 1) c.nullP, c.mvS aP c.nullP]

/-- The moves of the binary method, of which `b` bits are left. -/
def mulcMoves (v : Ptr) (k : Word) : Bool → Nat → List Mv
  | _, 0 => []
  | started, b + 1 =>
    (if started then [c.mvS c.sniffP c.nullP] else []) ++ (if k.getLsbD b then [c.mvS v c.nullP] else []) ++
      mulcMoves v k (started || k.getLsbD b) b

/-- `jeq`, once the operands are resolved. -/
def jeqMoves (aP bP atP at2P : Ptr) : List Mv :=
  if c.opts.compact then
    c.subIntoSniff aP bP ++
      [c.mv c.sniffP atP, c.mv atP c.sniffP, c.mv (c.litNumP 0xFFFFFFFF) c.xorP,
        c.mvS (c.litNumP 1) c.nullP, c.mv c.sniffP at2P, c.mv at2P c.sniffP, c.mv atP c.setP,
        c.mvB c.sniffP atP] ++ c.signTailC atP
  else
    c.subIntoSniff aP bP ++
      [c.mv c.sniffP atP, c.mv (c.litNumP 0xFFFFFFFF) c.xorP, c.mvS (c.litNumP 1) c.nullP,
        c.mv atP c.setP, c.mvB c.sniffP c.sniffP] ++ c.signTail

/-- `jlt` and `jltu`, where `first` and `last` are what they do with the operands
    before and after the difference. -/
def lessMoves (first last : List Mv) (aP bP atP at2P : Ptr) : List Mv :=
  if c.opts.compact then
    first ++ [c.mv c.sniffP atP] ++ c.subIntoSniff aP bP ++
      [c.mv c.sniffP at2P, c.mv at2P c.sniffP, c.mv atP c.clrP, c.mv c.sniffP at2P] ++ last ++
      [c.mv at2P c.setP, c.mvB c.sniffP atP] ++ c.signTailC atP
  else
    first ++ [c.mv c.sniffP atP] ++ c.subIntoSniff aP bP ++ [c.mv atP c.clrP, c.mv c.sniffP at2P] ++ last ++
      [c.mv at2P c.setP, c.mvB c.sniffP c.sniffP] ++ c.signTail

/-- The moves of an instruction, and how many generated labels and pairs it used. -/
def moves (mnem : Mnem) (args : List String) : Except AsmError (List Mv × Nat × Nat) :=
  let compact := c.opts.compact
  let str (i : Nat) : String := args.getD i ""
  let arg (i : Nat) : Except AsmError Ptr := c.arg (str i)
  let genP : Ptr := c.litSymP (Asm.genName (c.gen + 1))
  let plain (ms : List Mv) : List Mv × Nat × Nat := (ms, 0, 0)
  match mnem with
  | .move => do
    let f ← c.opts.parseMoveFlags c.line (args.drop 2)
    let src ← arg 0
    let dst ← arg 1
    return plain [⟨src, dst, f.count, c.opts.moveCtrl f, f.dyn⟩]
  | .add => do
    let a ← arg 0
    let b ← arg 1
    let d ← arg 2
    return plain [c.mv a c.sniffP, c.mvS b c.nullP, c.mv c.sniffP d]
  | .sub => do
    let a ← arg 0
    let b ← arg 1
    let d ← arg 2
    return plain (c.subIntoSniff a b ++ [c.mv c.sniffP d])
  | .or => do
    let a ← arg 0
    let b ← arg 1
    let d ← arg 2
    return plain [c.mv b c.sniffP, c.mv a c.setP, c.mv c.sniffP d]
  | .xor => do
    let a ← arg 0
    let b ← arg 1
    let d ← arg 2
    return plain [c.mv b c.sniffP, c.mv a c.xorP, c.mv c.sniffP d]
  | .and => do
    let a ← arg 0
    let b ← arg 1
    let d ← arg 2
    let atP ← c.symP "at"
    return plain [c.mv a c.sniffP, c.mv (c.litNumP 0xFFFFFFFF) c.xorP, c.mv c.sniffP atP, c.mv b c.sniffP,
      c.mv atP c.clrP, c.mv c.sniffP d]
  | .andn => do
    let a ← arg 0
    let b ← arg 1
    let d ← arg 2
    return plain [c.mv a c.sniffP, c.mv b c.clrP, c.mv c.sniffP d]
  | .shl => do
    let a ← arg 0
    let d ← arg 1
    return plain [c.mv a c.sniffP, c.mvS a c.nullP, c.mv c.sniffP d]
  | .mulc => do
    let k := (parseNum (str 1)).getD 0
    let v ← arg 0
    let d ← arg 2
    return plain <|
      if compact then c.mv c.zeroP c.sniffP :: c.mulcMoves v k false 32 ++ [c.mv c.sniffP d]
      else [c.mv c.zeroP c.sniffP, { c.mvS v c.nullP with count := k }, c.mv c.sniffP d]
  | .jump =>
    let target := match parseNum (str 0) with
      | some v => c.litNumP v
      | none => c.litSymP (str 0)
    .ok (plain [c.mv target c.pcP])
  | .jumpr => do
    let p ← arg 0
    return plain [c.mv p c.pcP]
  | .jneg => do
    let v ← arg 0
    let mask : Word := if compact then 0xFFFFFFF7 else 0xFFFFFFEF
    return ([c.mvB v c.sniffP, c.mv (c.litNumP mask) c.clrP, c.mvS genP c.nullP, c.mv c.sniffP c.pcP,
      c.mv (c.litSymP (str 2)) c.pcP, c.mv (c.litSymP (str 1)) c.pcP], 1, 0)
  | .jsign => do
    let v ← arg 0
    let _ ← c.symP "null"
    return (c.mvB v c.sniffP :: c.signTail, 0, 1)
  | .jeq => do
    let a ← arg 0
    let b ← arg 1
    let atP ← c.symP "at"
    let at2P ← if compact then c.symP "at2" else .ok atP
    let _ ← c.symP "null"
    return (c.jeqMoves a b atP at2P, 0, 1)
  | .jlt => do
    let a ← arg 0
    let b ← arg 1
    let atP ← c.symP "at"
    let at2P ← c.symP "at2"
    let _ ← c.symP "null"
    return (c.lessMoves [c.mv a c.sniffP, c.mv b c.xorP] [c.mv a c.sniffP, c.mv b c.clrP] a b atP at2P, 0, 1)
  | .jltu => do
    let a ← arg 0
    let b ← arg 1
    let atP ← c.symP "at"
    let at2P ← c.symP "at2"
    let _ ← c.symP "null"
    return (c.lessMoves [c.mv a c.sniffP, c.mv b c.clrP] [c.mv b c.sniffP, c.mv a c.clrP] a b atP at2P, 0, 1)
  | .jbool => do
    let v ← arg 0
    let slots := [c.mvS genP c.nullP, c.mv c.sniffP c.pcP, c.mv (c.litSymP (str 1)) c.pcP,
      c.mv (c.litSymP (str 2)) c.pcP]
    return (if compact then
        [c.mv c.zeroP c.sniffP, c.mvS v c.nullP, c.mvS c.sniffP c.nullP, c.mvS c.sniffP c.nullP,
          c.mvS c.sniffP c.nullP] ++ slots
      else [c.mv c.zeroP c.sniffP, { c.mvS v c.nullP with count := 16 }] ++ slots, 1, 0)
  | .call => do
    let lrP ← c.symP "lr"
    return ([c.mv genP lrP, c.mv (c.litSymP (str 0)) c.pcP], 1, 0)
  | .ret => do
    let lrP ← c.symP "lr"
    return plain [c.mv lrP c.pcP]
  | .safepoint => do
    let irqResumeP ← c.symP "irqresume"
    let dispatchP ← c.symP "dispatch"
    return ([c.mv genP irqResumeP, c.mv dispatchP c.pcP], 1, 0)
  | .gpio =>
    let pin := (parseNum (str 0)).getD 0
    .ok (plain [c.mv (c.litNumP (c.opts.gpioOutCtrl (str 1 == "hi"))) (.abs (c.opts.gpioCtrlAddr pin))])
  | .nop => .ok (plain [{ c.mv c.zeroP c.nullP with count := 0 }])
  | .halt => .ok (plain [])

end EmitCtx

/-! ## Compact records -/

namespace EmitCtx

variable (c : EmitCtx)

/-- The shape that `block` gives a move. -/
def shape (m : Mv) (bank : Bank) : Cshape :=
  { bank := bank
    count := m.count
    srcSniff := m.src == c.sniffP
    dstPc := m.dst == .abs (chanRegAddr Compact.fetch offReadAddr)
    dyn := m.dyn }

/-- `emitPrims`: a record for a prim of move `m`. -/
def recordOf (m : Mv) : Prim → Ptr × Ptr
  | .record => (m.src, m.dst)
  | .halt => (.abs 0, .abs 0)
  | .switch b => (c.litNumP (Compact.window b.ch), .abs (chanRegAddr Compact.fetch offAl3WriteAddr))
  | .count b k => (c.litNumP k, .abs (chanRegAddr b.ch offAl2TransCount))
  | .stageRead => (c.sniffP, c.regP "at")
  | .stagePush => (c.regP "at", .abs (chanRegAddr Compact.fetch offReadAddr))

/-- The records that begin nothing of the program's. -/
def noMove : Mv := ⟨.abs 0, .abs 0, 0, 0, false⟩

/-- `block` for one move after the other. -/
def records (c : EmitCtx) (st : Cstate) : List Mv → Except AsmError (List (Ptr × Ptr) × Cstate)
  | [] => .ok ([], st)
  | m :: ms =>
    match classifyCtrl c.opts.cfg c.opts.variant m.ctrl with
    | none => .error (.notABank c.line m.ctrl)
    | some bank =>
      let (ps, st) := st.plan (c.shape m bank)
      (c.records st ms).map fun (rs, st) => (ps.map (c.recordOf m) ++ rs, st)

/-- `endInstr`: the records that end an instruction, if it has the size that was
    predicted. -/
def endInstr (predicted : Word) (rs : List (Ptr × Ptr)) (st : Cstate) :
    Except AsmError (List (Ptr × Ptr) × Cstate) :=
  let (ps, st) := st.planSync
  let rs := rs ++ ps.map (c.recordOf noMove)
  if BitVec.ofNat 32 rs.length ≠ predicted then
    .error (.sizingMismatch c.line predicted (BitVec.ofNat 32 rs.length))
  else .ok (rs, st)

/-- The records of an instruction. `halt` does not go through `block`. -/
def instrRecords (st : Cstate) (predicted : Word) (mnem : Mnem) (ms : List Mv) :
    Except AsmError (List (Ptr × Ptr) × Cstate) :=
  if mnem = .halt then c.endInstr predicted [c.recordOf noMove .halt] st
  else (c.records st ms).bind fun (rs, st) => c.endInstr predicted rs st

end EmitCtx

/-! ## Pass 2 -/

/-- Where pass 2 has got to: the image so far, the segment that text goes to, the
    planner, and the generated labels and pairs that have been used. -/
structure EmitState where
  bld : Builder
  out : SegId := .text
  st : Cstate := .init
  gen : Nat := 0
  pair : Nat := 0

section

variable (o : Options) (a : Asm)

def Builder.records (b : Builder) (s : SegId) (rs : List (Ptr × Ptr)) : Builder :=
  rs.foldl (fun b r => b.recordP o s r.1 r.2) b

def Builder.blocks (b : Builder) (s : SegId) (ms : List Mv) : Builder :=
  ms.foldl (fun b m => b.blockP o s m.src m.dst m.count m.ctrl) b

/-- The all-zero block. -/
def haltMv : Mv := ⟨.abs 0, .abs 0, 0, 0, false⟩

/-- The words of a `.word` directive. -/
def Builder.wordArgs (b : Builder) (s : SegId) (line : Nat) : List String → Except AsmError Builder
  | [] => .ok b
  | arg :: args =>
    match parseNum arg with
    | some v => Builder.wordArgs (b.word s v) s line args
    | none =>
      match a.syms arg with
      | none => .error (.wordOfUndefined line arg)
      | some sym =>
        let (ref, off) := a.symLoc sym 0
        Builder.wordArgs (b.wordRef o s ref off) s line args

/-- A statement in the data segment. -/
def emitData (b : Builder) (l : Laid) : Except AsmError Builder :=
  match l.stmt.dir with
  | "word" => if l.inText then .ok b else b.wordArgs o a .data l.stmt.line l.stmt.args
  | "space" =>
    let n := (parseNum (l.stmt.args.getD 0 "")).getD 0
    .ok ((List.range (n.toNat / 4)).foldl (fun b _ => b.word .data 0) b)
  | "regs" => .ok (abiRegs.foldl (fun b _ => b.word .data 0) b)
  | _ => .ok b

/-- A word of the pool. -/
def poolWord (b : Builder) (s : SegId) (op : Operand) : Except AsmError Builder :=
  if op.isNum then .ok (b.word s op.num)
  else
    match a.syms op.sym with
    | none => .error (.undefinedLiteral op.sym)
    | some sym =>
      let (ref, off) := a.symLoc sym op.field
      .ok (b.wordRef o s ref off)

/-- One half of the pool: what is in the text if `cold`, else what is in data. -/
def emitPool (cold : Bool) (s : SegId) (b : Builder) : List String → Except AsmError Builder
  | [] => .ok b
  | k :: ks =>
    if (a.litText k).isSome = cold then
      (poolWord o a b s ((a.lits k).getD { kind := .lit })).bind fun b => emitPool cold s b ks
    else emitPool cold s b ks

/-- An init write of the program. -/
def emitWrite (b : Builder) (w : WriteStmt) : Except AsmError Builder :=
  if w.valSym = "" then .ok (b.addWrite w.addr w.valNum)
  else
    match a.syms w.valSym with
    | none => .error (.writeOfUndefined w.line w.valSym)
    | some sym =>
      let (ref, off) := a.symLoc sym 0
      .ok (b.addWriteRef o w.addr ref off)

/-- The init writes: sniffer, machine, program. -/
def emitWrites (b : Builder) : Except AsmError Builder :=
  let v := o.variant
  let b :=
    if a.noSniff then b
    else
      (b.addWrite v.sniffCtrlAddr (sniffCtrlEN ||| sniffCtrlDmach o.exec ||| sniffCtrlCalc sniffCalcSum)).addWrite
        v.sniffDataAddr 0
  let b :=
    if o.compact then
      let b := (List.range Compact.numBanks).foldl (fun b ch =>
        (b.addWrite (chanRegAddr ch offAl1Ctrl) (Compact.bankCtrl v ch)).addWrite
          (chanRegAddr ch offAl2TransCount) 1) b
      let winOff := (a.litOffs (litKey (.litNum (Compact.window Compact.plain)))).getD 0
      (((b.addWriteRef o (chanRegAddr Compact.cleanup offAl1ReadAddr) .data winOff).addWrite
        (chanRegAddr Compact.cleanup offAl1WriteAddr) (chanRegAddr Compact.fetch offAl2WriteAddrTrig)).addWrite
        (chanRegAddr Compact.cleanup offAl2TransCount) 1).addWrite
        (chanRegAddr Compact.cleanup offAl1Ctrl) (Compact.cleanupCtrl v)
    else b
  a.writes.foldlM (emitWrite o a) b

/-- An instruction. -/
def emitInstr (e : EmitState) (l : Laid) (mnem : Mnem) : Except AsmError EmitState :=
  let c : EmitCtx := ⟨o, a, l.stmt.line, e.gen, e.pair⟩
  (c.moves mnem l.stmt.args).bind fun (ms, gen, pair) =>
    let e := { e with gen := e.gen + gen, pair := e.pair + pair }
    if o.compact then
      (c.instrRecords e.st l.crecs mnem ms).map fun (rs, st) =>
        { e with bld := e.bld.records o e.out rs, st := st }
    else .ok { e with bld := e.bld.blocks o e.out (if mnem = .halt then [haltMv] else ms) }

/-- A statement in the text. -/
def emitText (e : EmitState) (l : Laid) : Except AsmError EmitState :=
  if l.stmt.dir = "ramtext" then .ok { e with out := .rtext }
  else if l.stmt.dir = "word" ∧ l.inText then
    (e.bld.wordArgs o a e.out l.stmt.line l.stmt.args).map fun b => { e with bld := b }
  else
    match Mnem.ofString l.stmt.mnem with
    | none => .ok e
    | some mnem => emitInstr o a e l mnem

/-- Slot `i` of a row of the arena. -/
def emitSlot (e : EmitState) (neg : Bool) (i : Nat) : Except AsmError EmitState :=
  match a.jpairs[i]? with
  | none =>
    let c : EmitCtx := ⟨o, a, 0, e.gen, e.pair⟩
    if o.compact then
      (c.instrRecords e.st 1 .halt []).map fun (rs, st) =>
        { e with bld := e.bld.records o e.out rs, st := st }
    else .ok { e with bld := e.bld.blocks o e.out [haltMv] }
  | some p =>
    let c : EmitCtx := ⟨o, a, p.line, e.gen, e.pair⟩
    let m := c.mv (c.litSymP (if neg then p.neg else p.nonneg)) c.pcP
    if o.compact then
      (c.instrRecords e.st 1 .jump [m]).map fun (rs, st) =>
        { e with bld := e.bld.records o e.out rs, st := st }
    else .ok { e with bld := e.bld.blocks o e.out [m] }

/-- The slots of the arena in the order of their addresses. -/
def arenaSlots (n : Nat) : List (Bool × Nat) :=
  (List.range ((n + o.pairsPerBank - 1) / o.pairsPerBank)).flatMap fun b =>
    [false, true].flatMap fun neg => (List.range o.pairsPerBank).map fun slot => (neg, b * o.pairsPerBank + slot)

def emitArena (e : EmitState) : Except AsmError EmitState :=
  (arenaSlots o a.jpairs.length).foldlM (fun e x => emitSlot o a e x.1 x.2) e

/-- `Result`, without the addresses of the literals. -/
structure AsmResult where
  image : Dmx.Image
  symbols : String → Option Word

/-- `Builder.Image`. -/
def Builder.image (b : Builder) (entry : SegId × Word) : Except AsmError Dmx.Image :=
  let segs := [SegId.text, .data] ++ if a.split then [.rtext] else []
  let im : Dmx.Image :=
    { segments := segs.map fun s => ⟨o.linkAddr s, Dmx.leBytes (b.words s)⟩
      relocs := b.relocs
      writes := b.writes
      entrySeg := entry.1.idx
      entryOff := entry.2 }
  match im.validate with
  | .ok _ => .ok im
  | .error _ => .error .image

/-- `emit`, up to the finished image. -/
def emitImage (ls : List Laid) : Except AsmError Builder :=
  (ls.foldlM (emitData o a) {}).bind fun b =>
    (emitPool o a false .data b a.litOrder).bind fun b =>
      (emitWrites o a b).bind fun b =>
        if o.compact && (a.syms "at").isNone then .error .compactRequiresRegs
        else
          (ls.foldlM (emitText o a) { bld := b }).bind fun e =>
            (emitArena o a e).bind fun e => emitPool o a true .text e.bld a.litOrder

/-- `emit`. -/
def emit (ls : List Laid) : Except AsmError AsmResult :=
  (emitImage o a ls).bind fun b =>
    (b.image o a (a.symLoc ((a.syms a.entry).getD ⟨true, 0⟩) 0)).map fun im =>
      { image := im
        symbols := fun name =>
          if !o.internalSyms ∧ "__".toList.isPrefixOf name.toList then none
          else (a.syms name).map fun sym =>
            let (seg, off) := a.symLoc sym 0
            o.linkAddr seg + off }

end

/-- The defaults of `Assemble`. -/
def Options.defaults (o : Options) : Options :=
  let o := { o with
    textBase := if o.textBase = 0 then 0x20000000 else o.textBase
    dataBase := if o.dataBase = 0 then 0x20010000 else o.dataBase }
  if o.compact then { o with fetch := Compact.fetch, exec := Compact.sniff, fix := Compact.fetch }
  else if o.fetch = 0 ∧ o.exec = 0 ∧ o.fix = 0 then { o with fetch := 0, exec := 1, fix := 2 }
  else o

/-- `Assemble`. -/
def assemble (src : String) (o : Options) : Except AsmError AsmResult :=
  (parse o.compact src).bind fun ss =>
    (Asm.layout o.defaults ss).bind fun (a, ls) => emit o.defaults a ls

end DmaCpu.Dmaasm
