-- SUMMARY: The lowering of comparisons in `compare.go`: helper bodies, comparison sites, and the choice among their forms.
import DmaCpu.Cc.Values

/-!
# Comparisons

A comparison is a two-way branch. Its site either holds a branch macro, or puts
the operands and the two targets into shared cells and jumps into a helper, or
hands the helper a constant descriptor that names them. Which form a site takes
depends on the build's options, on the profile and on what is known about the
operands.
-/
namespace DmaCpu.Cc

open Asm

/-! ## Helpers -/

inductive Helper where
  | eqz
  | eq
  | lt
  | ltu
  | eqzp
  | ltp
deriving DecidableEq, Repr

namespace Helper

def name : Helper → String
  | eqz => "eqz"
  | eq => "eq"
  | lt => "lt"
  | ltu => "ltu"
  | eqzp => "eqzp"
  | ltp => "ltp"

/-- The end of every helper: a branch on the sign of `at`. With `neg` a negative
    word goes to the first target. -/
def dispatch (neg : Bool) (yes no : String) : List Line :=
  [.ins (.branch (.sign (rt .at1)) (.label (if neg then yes else no))
     (.label (if neg then no else yes))),
   .label yes, .ins (.jumpr (rt .cwT)),
   .label no, .ins (.jumpr (rt .cwF))]

/-- `cmpHelpers`. -/
def text : Helper → List Line
  | eqz =>
    [.label "__cw_eqz",
     .ins (.bin .sub (rt .zero) (rt .cwA) (rt .at1)),
     .ins (.bin .or (rt .at1) (rt .cwA) (rt .at1))] ++
    dispatch false "__cw_eqz_z" "__cw_eqz_n"
  | eq =>
    [.label "__cw_eq",
     .ins (.bin .sub (rt .cwA) (rt .cwB) (rt .at1)),
     .ins (.bin .sub (rt .zero) (rt .at1) (rt .at2)),
     .ins (.bin .or (rt .at1) (rt .at2) (rt .at1))] ++
    dispatch false "__cw_eq_e" "__cw_eq_n"
  | lt =>
    [.label "__cw_lt",
     .ins (.bin .xor (rt .cwA) (rt .cwB) (rt .at1)),
     .ins (.bin .sub (rt .cwA) (rt .cwB) (rt .at2)),
     .ins (.bin .andn (rt .at2) (rt .at1) (rt .at2)),
     .ins (.bin .andn (rt .cwA) (rt .cwB) (rt .at1)),
     .ins (.bin .or (rt .at1) (rt .at2) (rt .at1))] ++
    dispatch true "__cw_lt_t" "__cw_lt_f"
  | ltu =>
    [.label "__cw_ltu",
     .ins (.bin .andn (rt .cwA) (rt .cwB) (rt .at1)),
     .ins (.bin .sub (rt .cwA) (rt .cwB) (rt .at2)),
     .ins (.bin .andn (rt .at2) (rt .at1) (rt .at2)),
     .ins (.bin .andn (rt .cwB) (rt .cwA) (rt .at1)),
     .ins (.bin .or (rt .at1) (rt .at2) (rt .at1))] ++
    dispatch true "__cw_ltu_t" "__cw_ltu_f"
  | eqzp =>
    [.label "__cw_eqzp",
     .ins (.bin .add (rt .cwA) (.num 0xFFFFFFFF) (rt .at1))] ++
    dispatch true "__cw_eqzp_z" "__cw_eqzp_n"
  | ltp =>
    [.label "__cw_ltp",
     .ins (.bin .sub (rt .cwA) (rt .cwB) (rt .at1))] ++
    dispatch true "__cw_ltp_t" "__cw_ltp_f"

/-- The unpacking of a descriptor `[t][f][&a]`, with the label of its record. -/
def unpack1 (name record : String) : List Line :=
  [.label ("__cw_" ++ name ++ "_d"),
   .ins (.move (rt .cwD) (.field record .read) {}),
   .label record,
   .ins (.move (.abs 0) (rt .cwT) (.words 3)),
   .ins (.move (rt .cwPa) (.field (record ++ "a") .read) {}),
   .label (record ++ "a"),
   .ins (.move (.abs 0) (rt .cwA) {}),
   .ins (.jump (.label ("__cw_" ++ name)))]

/-- The unpacking of a descriptor `[&b][t][f][&a]`. -/
def unpack2 (name record : String) : List Line :=
  [.label ("__cw_" ++ name ++ "_d"),
   .ins (.move (rt .cwD) (.field record .read) {}),
   .label record,
   .ins (.move (.abs 0) (rt .cwPb) (.words 4)),
   .ins (.move (rt .cwPa) (.field (record ++ "a") .read) {}),
   .label (record ++ "a"),
   .ins (.move (.abs 0) (rt .cwA) {}),
   .ins (.move (rt .cwPb) (.field (record ++ "b") .read) {}),
   .label (record ++ "b"),
   .ins (.move (.abs 0) (rt .cwB) {}),
   .ins (.jump (.label ("__cw_" ++ name)))]

/-- `cmpDescHelpers`. -/
def descText : Helper → List Line
  | eqz => unpack1 "eqz" "CWDz"
  | eq => unpack2 "eq" "CWDq"
  | lt => unpack2 "lt" "CWDl"
  | ltu => unpack2 "ltu" "CWDu"
  | eqzp => unpack1 "eqzp" "CWDzp"
  | ltp => unpack2 "ltp" "CWDp"

end Helper

/-! ## The vector page -/

/-- `vecSlots`: the jump stubs of the page, kind and name. -/
def vecSlots : List (String × String) :=
  [("rt", "mul"), ("rt", "udivmod"), ("rt", "udiv"), ("rt", "urem"),
   ("rt", "sdiv"), ("rt", "srem"), ("rt", "shl"), ("rt", "lshr"),
   ("rt", "ashr"), ("rt", "memcpy"), ("rt", "memset"),
   ("cw", "eq"), ("cw", "eqz"), ("cw", "lt"), ("cw", "ltu"),
   ("cw", "eq_d"), ("cw", "eqz_d"), ("cw", "lt_d"), ("cw", "ltu_d"),
   ("cw", "eqzp"), ("cw", "ltp"), ("cw", "eqzp_d"), ("cw", "ltp_d"),
   ("rt", "udivmod10")]

/-- `vecSlotOff`. Only slots in the table are asked for. -/
def vecSlotOff (kind name : String) : Word :=
  0x20 + BitVec.ofNat 32 (8 * vecSlots.idxOf (kind, name))

/-- The cells at the head of the page. -/
def vecCwCells : List Reg := [.cwA, .cwB, .cwD, .cwPb, .cwT, .cwF, .cwPa]

/-- `vecCwOff`. -/
def vecCwOff (cell : Reg) : Word := BitVec.ofNat 32 (4 * vecCwCells.idxOf cell)

/-- `ExternRT`: where a guest finds its host's page and register file. -/
structure ExternRT where
  vec : Word
  regs : Word
deriving DecidableEq, Repr

/-! ## Sites -/

structure Options where
  inlineCompares : Bool
  optSize : Bool
  hotSites : List (String × Bool)
  inlineSites : List (String × Bool)
  xipText : Bool
  runtimeExtern : Option ExternRT

/-- A word of a `.word` directive. -/
inductive Datum where
  | num (v : Word)
  | cell (c : Cell)
  | label (l : String)
deriving DecidableEq, Repr


/-- The function that is being lowered. -/
structure Ctx where
  opts : Options
  name : String
  inRAM : Bool
  optSize : Bool
  facts : FactSet
  curBlock : Nat
  names : Names

/-- The word of a `.word` that holds the value of `$` operand `op`, if one can be
    spelled. -/
def litDatum : Opnd → Option Datum
  | .num v => some (.num v)
  | .addr c off => if off = 0 then some (.cell c) else none
  | .code l off => if off = 0 then some (.label l) else none
  | _ => none

/-- What the code generator has gathered so far. The word of every constant it has
    a symbol for is among the lines of constant data. -/
structure Gen where
  stubN : Nat
  cmpN : Nat
  cmpConst : List (Opnd × String)
  desc : List (String × List Datum)
  cmpUsed : List Helper
  cmpUsedD : List Helper
  declared : ∀ p ∈ cmpConst, ∃ d, litDatum p.1 = some d ∧ (p.2, [d]) ∈ desc

namespace Gen

variable (g : Gen)

/-- A line of constant data. -/
def addDesc (name : String) (ws : List Datum) : Gen :=
  { g with
    desc := g.desc ++ [(name, ws)]
    declared := fun p hp =>
      let ⟨d, hd, hmem⟩ := g.declared p hp
      ⟨d, hd, List.mem_append_left _ hmem⟩ }

/-- A constant with a symbol of its own. -/
def addConst (op : Opnd) (d : Datum) (h : litDatum op = some d) : Gen :=
  let sym := "cwc_" ++ toString g.cmpConst.length
  { g.addDesc sym [d] with
    cmpConst := (op, sym) :: g.cmpConst
    declared := by
      intro p hp
      rcases List.mem_cons.mp hp with rfl | hp
      · exact ⟨d, h, List.mem_append_right _ (List.mem_singleton.mpr rfl)⟩
      · exact (g.addDesc sym [d]).declared p hp }

end Gen

/-- `wordAddr`: the symbol of a word that holds the value of `op`, if there can be
    one. -/
def wordAddr (op : Opnd) (g : Gen) : Option Datum × Gen :=
  match op with
  | .cell c off => (if off = 0 then some (.cell c) else none, g)
  | .text l off => (if off = 0 then some (.label l) else none, g)
  | _ =>
    match h : litDatum op with
    | none => (none, g)
    | some d =>
      match g.cmpConst.lookup op with
      | some sym => (some (.cell (.word sym)), g)
      | none =>
        (some (.cell (.word ("cwc_" ++ toString g.cmpConst.length))), g.addConst op d h)

/-- The predicates of `icmp`. -/
inductive Pred where
  | eq
  | ne
  | slt
  | sge
  | sgt
  | sle
  | ult
  | uge
  | ugt
  | ule
deriving DecidableEq, Repr

def Pred.signed : Pred → Bool
  | slt | sge | sgt | sle => true
  | _ => false

/-- What `icmp` with a predicate is in LLVM. -/
def Pred.eval {w : Nat} : Pred → BitVec w → BitVec w → Bool
  | eq, x, y => x == y
  | ne, x, y => x != y
  | slt, x, y => x.slt y
  | sge, x, y => y.sle x
  | sgt, x, y => y.slt x
  | sle, x, y => x.sle y
  | ult, x, y => x.ult y
  | uge, x, y => y.ule x
  | ugt, x, y => y.ult x
  | ule, x, y => x.ule y

/-- An `icmp`, with the type of its operands. -/
structure Icmp where
  pred : Pred
  typ : Ty
  x : Value
  y : Value
deriving DecidableEq, Repr

/-- `emitInlineCompare`. -/
def emitInlineCompare (pred : Pred) (a b : Opnd) (t f : String) : List Line :=
  match pred with
  | .eq => [.ins (.branch (.eq a b) (.label t) (.label f))]
  | .ne => [.ins (.branch (.eq a b) (.label f) (.label t))]
  | .slt => [.ins (.branch (.lt a b) (.label t) (.label f))]
  | .sge => [.ins (.branch (.lt a b) (.label f) (.label t))]
  | .sgt => [.ins (.branch (.lt b a) (.label t) (.label f))]
  | .sle => [.ins (.branch (.lt b a) (.label f) (.label t))]
  | .ult => [.ins (.branch (.ltu a b) (.label t) (.label f))]
  | .uge => [.ins (.branch (.ltu a b) (.label f) (.label t))]
  | .ugt => [.ins (.branch (.ltu b a) (.label t) (.label f))]
  | .ule => [.ins (.branch (.ltu b a) (.label f) (.label t))]

/-- The predicate a helper's site is inlined with. -/
def Helper.inlinePred : Helper → Pred
  | eqz | eq | eqzp => .eq
  | lt | ltp => .slt
  | ltu => .ult

/-- `emitInlineSite`. A zero test has no second operand. -/
def emitInlineSite (h : Helper) (a : Opnd) (b : Option Opnd) (t f : String) : List Line :=
  emitInlineCompare h.inlinePred a (b.getD (.num 0)) t f

/-- `sextInto`. -/
def sextInto (opnd : Opnd) (bits : Nat) (dst : Opnd) : List Line :=
  [.ins (.bin .xor opnd (.num ((1 : Word) <<< (bits - 1))) dst),
   .ins (.bin .sub dst (.num ((1 : Word) <<< (bits - 1))) dst)]

namespace Ctx

variable (fc : Ctx)

def stub (pre : String) (g : Gen) : String × Gen :=
  (pre ++ toString (g.stubN + 1) ++ "_" ++ sanitize fc.name, { g with stubN := g.stubN + 1 })

/-- `cw`: a cell of the helpers, the image's own or the host's. -/
def cw (cell : Reg) : Opnd :=
  match fc.opts.runtimeExtern with
  | some x => .abs (x.vec + vecCwOff cell)
  | none => rt cell

/-- `cwJump`. -/
def cwJump (helper : String) : Line :=
  match fc.opts.runtimeExtern with
  | some x => .ins (.jump (.num (x.vec + vecSlotOff "cw" helper)))
  | none => .ins (.jump (.label ("__cw_" ++ helper)))

def cmpSiteName (n : Nat) : String := "cws_" ++ sanitize fc.name ++ "_" ++ toString n

def siteFourMove (site : String) : Bool :=
  if !fc.opts.optSize then true
  else if fc.inRAM then true
  else if fc.opts.hotSites.length ≠ 0 then (fc.opts.hotSites.lookup site).getD false
  else !fc.optSize

def siteInline (site : String) : Bool := (fc.opts.inlineSites.lookup site).getD false

/-- The site of a descriptor, once the operands' words have symbols. -/
def descriptorSite (h : Helper) (pa : Datum) (pb : Option Datum) (t f : String) (g : Gen) :
    List Line × Gen :=
  let desc := "cwd_" ++ toString (g.stubN + 1)
  ([.ins (.move (.addr (.word desc) 0) (fc.cw .cwD) {}), fc.cwJump (h.name ++ "_d")],
    { g.addDesc desc (pb.toList ++ [.label t, .label f, pa]) with
      stubN := g.stubN + 1
      cmpUsedD := h :: g.cmpUsedD })

/-- The four-move protocol. -/
def fourMoveSite (h : Helper) (a : Opnd) (b : Option Opnd) (t f : String) : List Line :=
  [.ins (.move (lbl t) (fc.cw .cwT) {}), .ins (.move (lbl f) (fc.cw .cwF) {}),
   .ins (.move a (fc.cw .cwA) {})] ++
  (b.toList.map fun b => .ins (.move b (fc.cw .cwB) {})) ++
  [fc.cwJump h.name]

/-- The symbol of the second operand's word: a zero test needs none. -/
def wordAddr2 (b : Option Opnd) (g : Gen) : Option (Option Datum) × Gen :=
  match b with
  | none => (some none, g)
  | some b => ((wordAddr b g).1.map some, (wordAddr b g).2)

/-- The outlined forms of `emitCmpSite`. -/
def outlinedSite (site : String) (h : Helper) (a : Opnd) (b : Option Opnd) (t f : String) (g : Gen) :
    List Line × Gen :=
  let g : Gen := { g with cmpUsed := h :: g.cmpUsed }
  match wordAddr a g with
  | (none, g) => (fc.fourMoveSite h a b t f, g)
  | (some pa, g) =>
    if fc.siteFourMove site then (fc.fourMoveSite h a b t f, g)
    else
      match wordAddr2 b g with
      | (none, g) => (fc.fourMoveSite h a b t f, g)
      | (some pb, g) => fc.descriptorSite h pa pb t f g

/-- `emitCmpSite`. -/
def emitCmpSite (h : Helper) (a : Opnd) (b : Option Opnd) (t f : String) (g : Gen) :
    List Line × Gen :=
  let site := fc.cmpSiteName (g.cmpN + 1)
  let g : Gen := { g with cmpN := g.cmpN + 1 }
  if fc.siteInline site then (.label site :: emitInlineSite h a b t f, g)
  else
    let (ls, g) := fc.outlinedSite site h a b t f g
    (.label site :: ls, g)

/-- `emitZeroTest`. -/
def emitZeroTest (v : Opnd) (vf : Facts) (ifZero ifNonzero : String) (g : Gen) : List Line × Gen :=
  fc.emitCmpSite (if vf.nonNeg then .eqzp else .eqz) v none ifZero ifNonzero g

/-- The constant zero, at any type. -/
def isZero : Value → Bool
  | .const int _ => int.setWidth 32 = (0 : Word)
  | _ => false

/-- The site of a comparison that is no test for zero. -/
def emitOrdered (pred : Pred) (a b : Opnd) (nonNeg : Bool) (t f : String) (g : Gen) :
    List Line × Gen :=
  let less : Helper := if nonNeg then .ltp else .lt
  let below : Helper := if nonNeg then .ltp else .ltu
  match pred with
  | .eq => fc.emitCmpSite .eq a (some b) t f g
  | .ne => fc.emitCmpSite .eq a (some b) f t g
  | .slt => fc.emitCmpSite less a (some b) t f g
  | .sge => fc.emitCmpSite less a (some b) f t g
  | .sgt => fc.emitCmpSite less b (some a) t f g
  | .sle => fc.emitCmpSite less b (some a) f t g
  | .ult => fc.emitCmpSite below a (some b) t f g
  | .uge => fc.emitCmpSite below a (some b) f t g
  | .ugt => fc.emitCmpSite below b (some a) t f g
  | .ule => fc.emitCmpSite below b (some a) f t g

/-- `emitCompareBranch` past the sign extension: the operands are `a` and `b`, with
    facts `fa` and `fb`. -/
def emitBranch (ins : Icmp) (a b : Opnd) (fa fb : Facts) (t f : String) (g : Gen) :
    List Line × Gen :=
  if fc.opts.inlineCompares then (emitInlineCompare ins.pred a b t f, g)
  else if (ins.pred = .eq ∨ ins.pred = .ne) ∧ (isZero ins.y ∨ isZero ins.x) then
    let (v, vf) := if isZero ins.x then (b, fb) else (a, fa)
    if ins.pred = .eq then fc.emitZeroTest v vf t f g else fc.emitZeroTest v vf f t g
  else fc.emitOrdered ins.pred a b (fa.nonNeg && fb.nonNeg) t f g

/-- `emitCompareBranch`. Sign-extended operands range over all words, so nothing is
    known about them. -/
def emitCompareBranch (ins : Icmp) (t f : String) (g : Gen) : Except Error (List Line × Gen) := do
  let w ← width ins.typ
  let a ← fc.names.op ins.x
  let b ← fc.names.op ins.y
  if ins.pred.signed ∧ w < 32 then
    let (ls, g) := fc.emitBranch ins (rt .sc0) (rt .sc1) ⟨false, false⟩ ⟨false, false⟩ t f g
    return (sextInto a w (rt .sc0) ++ sextInto b w (rt .sc1) ++ ls, g)
  else
    return fc.emitBranch ins a b (fc.facts.factsAt fc.curBlock ins.x)
      (fc.facts.factsAt fc.curBlock ins.y) t f g

/-- `emitBoolBranch`. -/
def emitBoolBranch (cond : Value) (ifTrue ifFalse : String) (g : Gen) :
    Except Error (List Line × Gen) := do
  let c ← fc.names.op cond
  let jbool : Line := .ins (.branch (.bool c) (.label ifTrue) (.label ifFalse))
  let cf := fc.facts.factsAt fc.curBlock cond
  let site := fc.cmpSiteName (g.cmpN + 1)
  if fc.opts.inlineCompares then return ([jbool], g)
  else if cf.bool ∧ fc.siteInline site then
    return ([.label site, jbool], { g with cmpN := g.cmpN + 1 })
  else return fc.emitZeroTest c cf ifFalse ifTrue g

/-- The `icmp` case of `emitInstr`, for a result that is not fused into a branch. -/
def emitIcmp (ins : Icmp) (res : String) (g : Gen) : Except Error (List Line × Gen) := do
  let r : Opnd := .cell (.word (fc.names.word res)) 0
  let (t, g) := fc.stub "Ct" g
  let (f, g) := fc.stub "Cf" g
  let (j, g) := fc.stub "Cj" g
  let (ls, g) ← fc.emitCompareBranch ins t f g
  return (ls ++
    [.label t, .ins (.move (.num 1) r {}), .ins (.jump (.label j)),
     .label f, .ins (.move (.num 0) r {}), .label j], g)

end Ctx

end DmaCpu.Cc
