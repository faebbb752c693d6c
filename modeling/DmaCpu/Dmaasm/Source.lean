-- SUMMARY: Assembly source: numbers, names, operands, and statements, as `dmaasm.go` reads them.
import DmaCpu.Dmaasm.Plan

/-!
# Source

A source file is a list of statements, each a label, a directive or an instruction
with its arguments. Arguments stay strings here: both passes parse them again.
Texts are lists of characters where they are taken apart.
-/
namespace DmaCpu.Dmaasm

open Emu

/-! ## Options and errors -/

/-- `Options`, once `Assemble` has filled in the defaults. -/
structure Options where
  variant : Variant
  textBase : Word := 0x20000000
  dataBase : Word := 0x20010000
  fetch : Nat := 0
  exec : Nat := 1
  fix : Nat := 2
  compact : Bool := false
  /-- 0 if there is no `.ramtext`. -/
  ramTextBase : Word := 0
  poolText : Bool := false
  hotLits : String → Bool := fun _ => false
  internalSyms : Bool := false

/-- What an error message says, and of which line. -/
inductive AsmError where
  | elseWithoutIf (line : Nat)
  | endifWithoutIf (line : Nat)
  | unknownMmio (line : Nat) (s : String)
  | badAbsolute (line : Nat) (s : String)
  | badLiteral (line : Nat) (s : String)
  | noField (line : Nat) (s field : String)
  | unknownField (line : Nat) (s : String)
  | badOperand (line : Nat) (s : String)
  | compactOnly (line : Nat)
  | badCount (line : Nat) (s : String)
  | badWordCount (line : Nat) (s : String)
  | unknownFlag (line : Nat) (s : String)
  | wcountExcludes (line : Nat)
  | notABank (line : Nat) (ctrl : Word)
  | duplicateLabel (line : Nat) (name : String)
  | textAfterRamtext (line : Nat)
  | ramtextBase (line : Nat)
  | duplicateRamtext (line : Nat)
  | fallsThrough (line : Nat) (mnem : String)
  | entryArgs (line : Nat)
  | wordArgs (line : Nat)
  | spaceArgs (line : Nat)
  | spaceSize (line : Nat)
  | regsOutsideData (line : Nat)
  | duplicateRegs (line : Nat)
  | writeArgs (line : Nat)
  | writeAddr (line : Nat)
  | writeValue (line : Nat) (s : String)
  | unknownDirective (line : Nat) (dir : String)
  | outsideText (line : Nat)
  | unknownInstruction (line : Nat) (mnem : String)
  | arity (line : Nat) (mnem : String) (lo hi n : Nat)
  | requiresRegs (line : Nat) (what : String)
  | mulcConstant (line : Nat) (s : String)
  | gpioPin (line : Nat) (s : String)
  | gpioLevel (line : Nat) (s : String)
  | missingEntry
  | compactRequiresRegs
  | entryNotText (name : String)
  | entryNotAligned (name : String)
  | undefinedSymbol (line : Nat) (name : String)
  | undefinedLiteral (name : String)
  | blockFieldOnData (line : Nat) (name : String)
  | wordOfUndefined (line : Nat) (name : String)
  | writeOfUndefined (line : Nat) (name : String)
  | sizingMismatch (line : Nat) (layout emitted : Word)
  | image
deriving DecidableEq, Repr

/-! ## Numbers and names -/

/-- The value of a digit, or more than any base allows. -/
def digit (c : Char) : Nat :=
  if '0' ≤ c ∧ c ≤ '9' then c.toNat - '0'.toNat
  else if 'a' ≤ c ∧ c ≤ 'z' then c.toNat - 'a'.toNat + 10
  else if 'A' ≤ c ∧ c ≤ 'Z' then c.toNat - 'A'.toNat + 10
  else 36

/-- What `underscoreOK` last saw. -/
inductive Saw where
  | nothing
  | digit
  | underscore
  | other
deriving DecidableEq

def underscoreLoop (hex : Bool) : Saw → List Char → Bool
  | saw, [] => saw != .underscore
  | saw, c :: cs =>
    if digit c < 10 ∨ hex ∧ digit c < 16 then underscoreLoop hex .digit cs
    else if c = '_' then saw == .digit && underscoreLoop hex .underscore cs
    else saw != .underscore && underscoreLoop hex .other cs

/-- The base that a number's first characters select, and the rest of it. -/
def numBase : List Char → Nat × List Char
  | '0' :: c :: d :: cs =>
    if c = 'b' ∨ c = 'B' then (2, d :: cs)
    else if c = 'o' ∨ c = 'O' then (8, d :: cs)
    else if c = 'x' ∨ c = 'X' then (16, d :: cs)
    else (8, c :: d :: cs)
  | '0' :: cs => (8, cs)
  | cs => (10, cs)

/-- `underscoreOK`: underscores only between digits, or behind the base. -/
def underscoreOK : List Char → Bool
  | '0' :: c :: cs =>
    if c = 'b' ∨ c = 'B' ∨ c = 'o' ∨ c = 'O' then underscoreLoop false .digit cs
    else if c = 'x' ∨ c = 'X' then underscoreLoop true .digit cs
    else underscoreLoop false .nothing ('0' :: c :: cs)
  | cs => underscoreLoop false .nothing cs

/-- `strconv.ParseUint(s, 0, 32)`. -/
def parseUint (s : List Char) : Option Nat :=
  let (base, ds) := numBase s
  let n := (ds.filter (· != '_')).foldl (fun n c => n * base + digit c) 0
  if s ≠ [] ∧ ds.all (fun c => c == '_' || digit c < base) ∧ n < 2 ^ 32 ∧ (ds.contains '_' → underscoreOK s) then
    some n
  else none

def parseNum (s : String) : Option Word :=
  match s.toList with
  | '-' :: cs => (parseUint cs).map fun n => -BitVec.ofNat 32 n
  | cs => (parseUint cs).map (BitVec.ofNat 32)

def isLetter (c : Char) : Bool := c = '_' || 'a' ≤ c && c ≤ 'z' || 'A' ≤ c && c ≤ 'Z'

def isDigit (c : Char) : Bool := '0' ≤ c && c ≤ '9'

def validName (s : String) : Bool :=
  match s.toList with
  | [] => false
  | c :: cs => isLetter c && cs.all fun c => isLetter c || isDigit c

/-- Up to the first `c`, and what is behind it if there is one. -/
def cut (c : Char) (s : List Char) : List Char × Option (List Char) :=
  (s.takeWhile (· != c), (s.dropWhile (· != c)).tail? )

/-- `splitPlusOff`: the parts of `name+off`. -/
def splitPlusOff (s : String) : Option (String × Word) :=
  match cut '+' s.toList with
  | (_, none) => some (s, 0)
  | (name, some off) => (parseNum (String.ofList off)).map fun off => (String.ofList name, off)

/-! ## Operands -/

inductive OpKind where
  /-- A label, perhaps with an offset. -/
  | sym
  /-- A literal: the address of a word in the pool. -/
  | lit
  /-- A hardware register by name. -/
  | mmio
  | abs
deriving DecidableEq, Repr

structure Operand where
  kind : OpKind
  sym : String := ""
  field : Word := 0
  plusOff : Bool := false
  blockField : Bool := false
  num : Word := 0
  isNum : Bool := false
deriving DecidableEq, Repr

def Operand.litNum (v : Word) : Operand := { kind := .lit, num := v, isNum := true }

def Operand.litSym (name : String) : Operand := { kind := .lit, sym := name }

/-- The hexadecimal digits of a word, most significant first. -/
def hex8 (v : Word) : String :=
  String.ofList ((List.range 8).map fun i => Nat.digitChar (v.toNat / 16 ^ (7 - i) % 16))

/-- `litKey`: the name of a literal in the pool. -/
def litKey (op : Operand) : String :=
  if op.isNum then "#" ++ hex8 op.num
  else if op.field ≠ 0 then "&" ++ op.sym ++ "+" ++ Nat.repr op.field.toNat
  else "&" ++ op.sym

namespace Options

variable (o : Options)

def cfg : FetchExecConfig := ⟨o.fetch, o.exec, o.fix, 0, 0⟩

def uart0Base : Word :=
  match o.variant with
  | .rp2040 => 0x40034000
  | .rp2350 => 0x40070000

def timerRawL : Word :=
  match o.variant with
  | .rp2040 => 0x40054028
  | .rp2350 => 0x400B0028

/-- The address of the program counter: fetch's read address. -/
def pcAddr : Word := chanRegAddr o.fetch offReadAddr

/-- `mmioAddr`. -/
def mmioAddr (name : String) : Option Word :=
  match name with
  | "sniff" => some o.variant.sniffDataAddr
  | "sniffctrl" => some o.variant.sniffCtrlAddr
  | "sniffset" => some o.variant.sniffDataSetAddr
  | "sniffclr" => some o.variant.sniffDataClrAddr
  | "sniffxor" => some o.variant.sniffDataXORAddr
  | "pc" => some o.pcAddr
  | "intr" => some (BitVec.ofNat 32 (dmaBase + offIntr))
  | "uartdr" => some o.uart0Base
  | "uartfr" => some (o.uart0Base + 0x18)
  | "timerawl" => some o.timerRawL
  | "timerawh" => some (o.timerRawL - 4)
  | "cnt8w" => if o.compact then some (chanRegAddr Compact.size8W offAl2TransCount) else none
  | "cnt8rw" => if o.compact then some (chanRegAddr Compact.size8RW offAl2TransCount) else none
  | _ => none

def blockFields (name : String) : Option Word :=
  match name with
  | "read" => some 0
  | "write" => some 4
  | "count" => some 8
  | "ctrl" => some 12
  | _ => none

/-- Split at the last dot, unless it is the first character. -/
def lastDot (s : List Char) : Option (String × String) :=
  let (rfield, rest) := cut '.' s.reverse
  match rest with
  | some (c :: cs) => some (String.ofList (c :: cs).reverse, String.ofList rfield.reverse)
  | _ => none

/-- The operand of a label, with its field or offset. -/
def parseSym (line : Nat) (s : String) : Except AsmError Operand :=
  let named (name : String) (field : Word) (plus bf : Bool) : Except AsmError Operand :=
    if validName name then
      .ok { kind := .sym, sym := name, field := field, plusOff := plus, blockField := bf }
    else .error (.badOperand line s)
  match lastDot s.toList with
  | some (name, fname) =>
    if o.compact ∧ (fname = "count" ∨ fname = "ctrl") then .error (.noField line s fname)
    else
      match blockFields fname with
      | none => .error (.unknownField line s)
      | some f => named name f false true
  | none =>
    match splitPlusOff s with
    | some (name, off) => if off ≠ 0 then named name off true false else named s 0 false false
    | none => named s 0 false false

/-- `parseOperand`, without the interning of literals. -/
def parseOperand (line : Nat) (s : String) : Except AsmError Operand :=
  match s.toList with
  | '%' :: name =>
    match o.mmioAddr (String.ofList name) with
    | none => .error (.unknownMmio line s)
    | some addr => .ok { kind := .mmio, num := addr }
  | '@' :: num =>
    match parseNum (String.ofList num) with
    | none => .error (.badAbsolute line s)
    | some v => .ok { kind := .abs, num := v }
  | '$' :: body =>
    match parseNum (String.ofList body) with
    | some v => .ok (.litNum v)
    | none =>
      match splitPlusOff (String.ofList body) with
      | none => .error (.badLiteral line s)
      | some (name, off) =>
        if validName name then .ok { kind := .lit, sym := name, field := off, plusOff := off != 0 }
        else .error (.badLiteral line s)
  | _ => o.parseSym line s

/-- `opIsSniff`. -/
def opIsSniff (line : Nat) (s : String) : Bool :=
  match o.parseOperand line s with
  | .ok op => op.kind == .mmio && op.num == o.variant.sniffDataAddr
  | .error _ => false

/-- `opIsPc`. -/
def opIsPc (line : Nat) (s : String) : Bool :=
  match o.parseOperand line s with
  | .ok op => op.kind == .mmio && op.num == o.pcAddr
  | .error _ => false

end Options

/-! ## Statements -/

/-- One of `label`, `dir` and `mnem` says what the statement is. -/
structure Stmt where
  line : Nat
  label : String := ""
  dir : String := ""
  mnem : String := ""
  args : List String := []
deriving DecidableEq, Repr

/-- `unicode.IsSpace`. -/
def isSpace (c : Char) : Bool :=
  let n := c.toNat
  9 ≤ n && n ≤ 13 || n == 0x20 || n == 0x85 || n == 0xA0 || n == 0x1680 || 0x2000 ≤ n && n ≤ 0x200A ||
    n == 0x2028 || n == 0x2029 || n == 0x202F || n == 0x205F || n == 0x3000

def trimSpace (s : List Char) : List Char :=
  ((s.dropWhile isSpace).reverse.dropWhile isSpace).reverse

/-- Without a comment that starts with two slashes. -/
def cutSlashes : List Char → List Char
  | '/' :: '/' :: _ => []
  | c :: cs => c :: cutSlashes cs
  | [] => []

/-- The labels in front of a statement, and the text behind them. -/
def takeLabels : Nat → List Char → List String × List Char
  | 0, text => ([], text)
  | fuel + 1, text =>
    let field := text.takeWhile (!isSpace ·)
    if field.getLast? = some ':' ∧ 1 < field.length then
      let (names, rest) := takeLabels fuel (trimSpace (text.drop field.length))
      (String.ofList field.dropLast :: names, rest)
    else ([], text)

/-- The statement of a text without labels. -/
def parseStmt (line : Nat) (text : List Char) : Stmt :=
  let (head, rest) := cut ' ' text
  let args := match rest with
    | none => []
    | some rest => (rest.splitOn ',').map fun arg => String.ofList (trimSpace arg)
  match head with
  | '.' :: dir => { line := line, dir := String.ofList dir, args := args }
  | mnem => { line := line, mnem := String.ofList mnem, args := args }

/-- The statements of one line. -/
def parseLine (line : Nat) (text : List Char) : List Stmt :=
  let (names, rest) := takeLabels text.length text
  names.map (fun name => { line := line, label := name }) ++ if rest = [] then [] else [parseStmt line rest]

/-- A section of conditional assembly. -/
structure Cond where
  active : Bool
  taken : Bool

/-- The loop of `parse`, at line `line`. -/
def parseLines (compact : Bool) : Nat → List Cond → List (List Char) → Except AsmError (List Stmt)
  | _, _, [] => .ok []
  | line, conds, raw :: rest =>
    let text := trimSpace (cutSlashes (cut ';' raw).1)
    if text = ".ifcompact".toList then
      parseLines compact (line + 1) (⟨compact, compact⟩ :: conds) rest
    else if text = ".else".toList then
      match conds with
      | [] => .error (.elseWithoutIf line)
      | c :: cs => parseLines compact (line + 1) ({ c with active := !c.taken } :: cs) rest
    else if text = ".endif".toList then
      match conds with
      | [] => .error (.endifWithoutIf line)
      | _ :: cs => parseLines compact (line + 1) cs rest
    else
      let stmts := if text ≠ [] ∧ conds.all Cond.active then parseLine line text else []
      (parseLines compact (line + 1) conds rest).map (stmts ++ ·)

/-- `parse`. -/
def parse (compact : Bool) (src : String) : Except AsmError (List Stmt) :=
  parseLines compact 1 [] (src.toList.splitOn '\n')

end DmaCpu.Dmaasm
