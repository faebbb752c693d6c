-- SUMMARY: The integer intrinsics lowered in place, and when their words are the LLVM results.
import DmaCpu.Cc.CompareSound
import DmaCpu.Lib.Fallible

/-!
# Integer intrinsics

The part of `emitIntrinsic` for `llvm.abs`, the minima and maxima, and
`llvm.usub.sat`. Each is lowered to what it is on words, at any width.
-/
namespace DmaCpu.Cc

open Asm Machine BitVec

inductive Intrinsic where
  | abs
  | smax
  | smin
  | umax
  | umin
  | usubSat
deriving DecidableEq, Repr

/-- What an intrinsic is in LLVM. The absolute value has one operand. -/
def Intrinsic.eval {w : Nat} : Intrinsic → BitVec w → BitVec w → BitVec w
  | abs, x, _ => if x.msb then 0 - x else x
  | smax, x, y => if x.slt y then y else x
  | smin, x, y => if x.slt y then x else y
  | umax, x, y => if x.ult y then y else x
  | umin, x, y => if x.ult y then x else y
  | usubSat, x, y => if x.ult y then 0 else x - y

namespace Ctx

variable (fc : Ctx)

/-- The word of a result. -/
def result (res : String) : Opnd := .cell (.word (fc.names.word res)) 0

/-- A branch into one of two instructions. -/
def choice (pre₁ pre₂ pre₃ : String) (c : Test Opnd) (yes no : Instr Opnd Opnd Target) (g : Gen) :
    List Line × Gen :=
  let (lt, g) := fc.stub pre₁ g
  let (ge, g) := fc.stub pre₂ g
  let (j, g) := fc.stub pre₃ g
  ([.ins (.branch c (.label lt) (.label ge)),
    .label lt, .ins yes, .ins (.jump (.label j)),
    .label ge, .ins no, .label j], g)

/-- `emitIntrinsic`, for an intrinsic on integers with operands `x` and `y`. -/
def emitIntrinsic (i : Intrinsic) (x y : Value) (res : String) (g : Gen) :
    Except Error (List Line × Gen) := do
  let a ← fc.names.op x
  let r := fc.result res
  match i with
  | .abs =>
    let (neg, g) := fc.stub "An" g
    let (pos, g) := fc.stub "Aj" g
    pure ([.ins (.move a r {}), .ins (.branch (.sign r) (.label neg) (.label pos)),
      .label neg, .ins (.bin .sub (rt .zero) r r), .label pos], g)
  | .smax =>
    let b ← fc.names.op y
    pure (fc.choice "Mlt" "Mge" "Mj" (.lt a b) (.move b r {}) (.move a r {}) g)
  | .smin =>
    let b ← fc.names.op y
    pure (fc.choice "Mlt" "Mge" "Mj" (.lt a b) (.move a r {}) (.move b r {}) g)
  | .umax =>
    let b ← fc.names.op y
    pure (fc.choice "Mlt" "Mge" "Mj" (.ltu a b) (.move b r {}) (.move a r {}) g)
  | .umin =>
    let b ← fc.names.op y
    pure (fc.choice "Mlt" "Mge" "Mj" (.ltu a b) (.move a r {}) (.move b r {}) g)
  | .usubSat =>
    let b ← fc.names.op y
    pure (fc.choice "Ult" "Uge" "Uj" (.ltu a b) (.move (.num 0) r {}) (.bin .sub a b r) g)

end Ctx

/-! ## What the code computes -/

section

variable {M : Machine} {Q : State → Prop} {S : Scope} {m : Cells} {x y z pc e r : Word}
  {a b : Opnd} {fl : Word → Field → Word} {g : Gen} {fc : Ctx} {d : Opnd} {res : String}

/-- A word for a result: no scratch word and not the zero. -/
structure ResultWord (S : Scope) (r : Word) : Prop where
  aligned : Aligned r .word
  apart : r ∉ scratchOf S
  zero : r ≠ S.reg .zero

/-- From `pc` the machine gets to `e`, with `z` in word `r` and the rest of memory but
    for the scratch words as it was. -/
def Leaves (M : Machine) (S : Scope) (r z : Word) (m : Cells) (pc e : Word) : Prop :=
  ∀ fl, M.wp (fun s => s.pc = e ∧ s.cells r = z ∧ Off (insert r (scratchOf S)) m s.cells) pc m fl

theorem Leaves.done (hr : m r = z) {m₀ : Cells} (hoff : Off (insert r (scratchOf S)) m₀ m) :
    M.wp (fun s => s.pc = e ∧ s.cells r = z ∧ Off (insert r (scratchOf S)) m₀ s.cells) e m fl :=
  fun _ => .done ⟨rfl, hr, hoff⟩

/-- Code that stops leaves one result. -/
theorem Leaves.eq {z' : Word} (hstop : M.code e = none) (h : Leaves M S r z m pc e)
    (h' : Leaves M S r z' m pc e) : z = z' := by
  have hmeet : ∀ s P P', M.step s P → M.step s P' → ∃ t, P t ∧ P' t := by
    rintro s P P' ⟨i, hi, hP⟩ ⟨i', hi', hP'⟩
    obtain rfl : i = i' := Option.some.inj (hi.symm.trans hi')
    obtain ⟨t, ht, hPt⟩ := hP ⟨0, 0, 0, 0⟩
    obtain ⟨t', ht', hPt'⟩ := hP' ⟨0, 0, 0, 0⟩
    obtain rfl : t = t' := Option.some.inj (ht.symm.trans ht')
    exact ⟨t, hPt, hPt'⟩
  have hend : ∀ t : State, t.pc = e → ∀ P, ¬M.step t P := by
    rintro t rfl P ⟨i, hi, -⟩
    exact nomatch hstop.symm.trans hi
  obtain ⟨t, ht, ht'⟩ := (h (fun _ _ => 0) 0).meet hmeet
    (fun t ht => hend t (ht.elim And.left And.left)) (h' (fun _ _ => 0) 0)
  exact ht.2.1.symm.trans ht'.2.1

/-- An instruction that leaves `z` in a word. -/
def Sets (M : Machine) (S : Scope) (m : Cells) (r z : Word) (i : Ins) : Prop :=
  ∀ m' pc n fl Q, Off (scratchOf S) m m' → M.code pc = some ⟨S.resolve i, n, S.scratch⟩ →
    (∀ m'', m'' r = z → Off (insert r (scratchOf S)) m m'' → M.wp Q n m'' fl) → M.wp Q pc m' fl

theorem dst_result (hr : S.cell (.word (fc.names.word res)) = r) :
    S.dst (fc.result res) = .cell r := by
  simp [Ctx.result, Scope.dst, hr]

theorem sets_move (hd : S.dst d = .cell r) (hr : ResultWord S r)
    (ha : Fixed S (scratchOf S) m a z) : Sets M S m r z (.move a d {}) := by
  intro m' pc n fl Q hoff hcode hend
  simp only [Scope.resolve, Instr.map, hd] at hcode
  refine wp_move hcode ((ha.off hoff).operand_eq (by simp) _) hr.aligned ?_
  refine hend _ (Function.update_self ..) ?_
  exact (hoff.mono (Set.subset_insert ..)).update (Set.mem_insert ..) z

theorem sets_sub (hd : S.dst d = .cell r) (hr : ResultWord S r)
    (ha : Fixed S (scratchOf S) m a x) (hb : Fixed S (scratchOf S) m b y) :
    Sets M S m r (x - y) (.bin .sub a b d) := by
  intro m' pc n fl Q hoff hcode hend
  have havoid : ∀ p ∈ [S.scratch.null], p ∈ scratchOf S := by simp [scratchOf, Scope.scratch]
  simp only [Scope.resolve, Instr.map, hd] at hcode
  refine wp_bin hcode (by decide) ((ha.off hoff).operand_eq havoid _)
    ((hb.off hoff).operand_eq havoid _) hr.aligned fun j => ?_
  refine hend _ (Function.update_self ..) ?_
  have hoff' := (hoff.update (havoid _ (List.mem_singleton.mpr rfl)) j).mono (Set.subset_insert r _)
  exact hoff'.update (Set.mem_insert ..) _

/-- The choice between two instructions. -/
theorem leaves_choice {pre₁ pre₂ pre₃ : String} {c : Test Opnd} {v : Bool} {yes no : Ins}
    {z z' : Word} (hz : m (S.reg .zero) = 0)
    (hcode : M.code.Holds S pc (fc.choice pre₁ pre₂ pre₃ c yes no g).1 e)
    (ha : Fixed S (scratchOf S) m a x) (hb : Fixed S (scratchOf S) m b y)
    (hc : Compares a b x y c v) (hyes : Sets M S m r z yes) (hno : Sets M S m r z' no) :
    Leaves M S r (if v then z else z') m pc e := by
  intro fl
  obtain ⟨n, hbranch, hlt, n₁, hi₁, n₂, hjump, hge, n₃, hi₂, hj, rfl⟩ := hcode
  refine wp_compares hc subset_rfl hz hbranch ha hb fun m' fl' hoff => ?_
  cases v with
  | true =>
    simp only [if_true, Scope.target, hlt]
    refine hyes m' _ _ _ _ hoff hi₁ fun m'' hr hoff' => wp_jump hjump ?_
    rw [Scope.target, hj]
    exact Leaves.done hr hoff'
  | false =>
    simp only [Bool.false_eq_true, if_false, Scope.target, hge]
    exact hno m' _ _ _ _ hoff hi₂ fun m'' hr hoff' => Leaves.done hr hoff'

/-- The absolute value is computed in the word of the result. -/
theorem leaves_abs {neg pos : String} (hd : S.dst d = .cell r) (hs : S.src d = .cell r)
    (hr : ResultWord S r) (hz : Steady (scratchOf S) m (S.reg .zero) 0)
    (hcode : M.code.Holds S pc [.ins (.move a d {}),
      .ins (.branch (.sign d) (.label neg) (.label pos)), .label neg, .ins (.bin .sub (rt .zero) d d), .label pos] e)
    (ha : Fixed S (scratchOf S) m a x) : Leaves M S r (if x.msb then 0 - x else x) m pc e := by
  intro fl
  obtain ⟨n₁, hmove, n₂, hbranch, hneg, n₃, hsub, hpos, rfl⟩ := hcode
  refine sets_move hd hr ha m pc n₁ fl _ (Off.refl _ m) hmove fun m₁ hr₁ hoff₁ => ?_
  have hz₁ : Steady (scratchOf S) m₁ (S.reg .zero) 0 := by
    refine ⟨hz.aligned, hz.apart, (hoff₁ _ ?_).trans hz.val⟩
    rintro (h | h)
    · exact hr.zero h.symm
    · exact hz.apart h
  have hread : Fixed S (scratchOf S) m₁ d x := .cell hs ⟨hr.aligned, hr.apart, hr₁⟩
  have havoid : ∀ p ∈ [S.scratch.null], p ∈ scratchOf S := by simp [scratchOf, Scope.scratch]
  refine wp_branch hbranch hz₁.val (?_ : _ = some (.sign x)) rfl fun m₂ hoff₂ => ?_
  · simp [Test.map, Test.one, Test.read, hread.operand_eq havoid]
  have hoff₂' : Off (scratchOf S) m₁ m₂ := hoff₂
  cases hmsb : x.msb with
  | true =>
    simp only [if_true, Scope.target, hneg]
    refine sets_sub hd hr (.cell (S.src_rt .zero) hz₁) hread m₂ _ _ _ _ hoff₂' hsub ?_
    exact fun m₃ hr₃ hoff₃ => Leaves.done hr₃ (hoff₁.trans hoff₃)
  | false =>
    simp only [Bool.false_eq_true, if_false, Scope.target, hpos]
    have hr₂ : m₂ r = x := (hoff₂' r hr.apart).trans hr₁
    exact Leaves.done hr₂ (hoff₁.trans (hoff₂'.mono (Set.subset_insert ..)))

/-- The code of an intrinsic does on words what the intrinsic does. -/
theorem leaves_emitIntrinsic {w : Nat} {i : Intrinsic} {u v : BitVec w} {p q : Value} {ty : Ty} {ls : List Line} {g' : Gen} (hty : Scalar ty w)
    (hu : Denotes fc S (scratchOf S) m ty p u) (hv : Denotes fc S (scratchOf S) m ty q v)
    (hr : ResultWord S (S.cell (.word (fc.names.word res))))
    (hz : Steady (scratchOf S) m (S.reg .zero) 0)
    (hemit : fc.emitIntrinsic i p q res g = .ok (ls, g')) (hcode : M.code.Holds S pc ls e) :
    Leaves M S (S.cell (.word (fc.names.word res))) (i.eval (u.setWidth 32) (v.setWidth 32)) m
      pc e := by
  have hd : S.dst (fc.result res) = .cell (S.cell (.word (fc.names.word res))) := dst_result rfl
  obtain ⟨a, ha, hemit⟩ := Fallible.bind_eq_ok.mp hemit
  have hfa := hu.fixed hty ha
  cases i
  case abs =>
    obtain ⟨rfl, rfl⟩ := Prod.mk.inj (Except.ok.inj hemit)
    exact leaves_abs hd (by simp [Ctx.result, Scope.src]) hr hz hcode hfa
  all_goals
    obtain ⟨b, hb, hemit⟩ := Fallible.bind_eq_ok.mp hemit
    have hfb := hv.fixed hty hb
    have hsa := @sets_move M _ _ _ _ _ _ hd hr hfa
    have hsb := @sets_move M _ _ _ _ _ _ hd hr hfb
    obtain ⟨rfl, rfl⟩ := Prod.mk.inj (Except.ok.inj hemit)
  case smax => exact leaves_choice hz.val hcode hfa hfb .lt hsb hsa
  case smin => exact leaves_choice hz.val hcode hfa hfb .lt hsa hsb
  case umax => exact leaves_choice hz.val hcode hfa hfb .ltu hsb hsa
  case umin => exact leaves_choice hz.val hcode hfa hfb .ltu hsa hsb
  case usubSat =>
    exact leaves_choice hz.val hcode hfa hfb .ltu (sets_move hd hr (.lit rfl))
      (sets_sub hd hr hfa hfb)

end

/-! ## Widths -/

/-- The operands on which an intrinsic on words is the intrinsic at their width. -/
def Intrinsic.Narrows {w : Nat} (i : Intrinsic) (x y : BitVec w) : Prop :=
  w = 32 ∨
    match i with
    | abs => x.msb = false ∨ x = intMin w
    | smax | smin => x.msb = y.msb
    | umax | umin | usubSat => True

section

variable {w : Nat} {x y : BitVec w}

theorem setWidth_inj (hw : w ≤ 32) : x.setWidth 32 = y.setWidth 32 ↔ x = y := by
  rw [← toNat_inj, toNat_setWidth_of_le hw, toNat_setWidth_of_le hw,
    toNat_inj]

theorem ult_setWidth (hw : w ≤ 32) : (x.setWidth 32).ult (y.setWidth 32) = x.ult y :=
  (Pred.eval_setWidth hw rfl x y : Pred.ult.eval _ _ = _)

theorem msb_setWidth (hw : w < 32) : (x.setWidth 32).msb = false := by
  rw [BitVec.msb_setWidth]
  simp [BitVec.getLsbD_of_ge x 31 (by omega)]

/-- Signed order on the words of narrow integers is unsigned order. -/
theorem slt_setWidth (hw : w < 32) : (x.setWidth 32).slt (y.setWidth 32) = x.ult y := by
  rw [slt_eq_ult_of_msb_eq ((msb_setWidth hw).trans (msb_setWidth hw).symm),
    ult_setWidth hw.le]

/-- A choice by signed order is the choice by unsigned order if the signs agree. -/
theorem ite_ult_eq_iff {p q : BitVec w} (hpq : x ≠ y → p ≠ q) :
    (if x.ult y then p else q) = (if x.slt y then p else q) ↔ x.msb = y.msb := by
  by_cases h : x.msb = y.msb
  · rw [slt_eq_ult_of_msb_eq h]
    exact iff_of_true rfl h
  · have hne : p ≠ q := hpq fun heq => h (heq ▸ rfl)
    rw [slt_eq_not_ult_of_msb_neq h]
    cases x.ult y
    · simp [h, hne.symm]
    · simp [h, hne]

theorem neg_eq_iff (hw : 0 < w) (h : x.msb = true) : 0 - x = x ↔ x = intMin w := by
  obtain ⟨n, rfl⟩ : ∃ n, w = n + 1 := ⟨w - 1, by omega⟩
  rw [msb_eq_decide, decide_eq_true_iff, Nat.add_sub_cancel] at h
  have hx := x.isLt
  have hmin : (intMin (n + 1)).toNat = 2 ^ n := by
    rw [toNat_intMin]
    exact Nat.mod_eq_of_lt (Nat.pow_lt_pow_right (by decide) (Nat.lt_succ_self n))
  have hsub : (0 - x).toNat = 2 ^ (n + 1) - x.toNat := by
    exact Nat.mod_eq_of_lt (by simp; omega)
  rw [← toNat_inj, ← toNat_inj]
  omega

/-- An intrinsic on words is the intrinsic of the operands' width on such operands and
    no others. -/
theorem Intrinsic.narrows_iff (hw : 0 < w) (hw' : w ≤ 32) (i : Intrinsic) :
    i.eval (x.setWidth 32) (y.setWidth 32) = (i.eval x y).setWidth 32 ↔ i.Narrows x y := by
  rcases hw'.eq_or_lt with rfl | hlt
  · simp [Narrows]
  · simp only [Narrows, hlt.ne, false_or]
    cases i with
    | abs =>
      simp only [eval, msb_setWidth hlt, Bool.false_eq_true, if_false, setWidth_inj hw']
      cases h : x.msb with
      | false => simp
      | true => simp [eq_comm, ← neg_eq_iff hw h]
    | smax =>
      simp only [eval, slt_setWidth hlt, ← apply_ite (setWidth 32), setWidth_inj hw']
      exact ite_ult_eq_iff Ne.symm
    | smin =>
      simp only [eval, slt_setWidth hlt, ← apply_ite (setWidth 32), setWidth_inj hw']
      exact ite_ult_eq_iff id
    | umax => simp only [eval, ult_setWidth hw', ← apply_ite (setWidth 32)]
    | umin => simp only [eval, ult_setWidth hw', ← apply_ite (setWidth 32)]
    | usubSat =>
      simp only [eval, ult_setWidth hw', iff_true]
      split
      case isTrue => simp
      case isFalse h =>
        rw [ult_eq_decide, decide_eq_true_iff, Nat.not_lt] at h
        have hx : (x.setWidth 32).toNat = x.toNat := toNat_setWidth_of_le hw'
        have hy : (y.setWidth 32).toNat = y.toNat := toNat_setWidth_of_le hw'
        have h' : (y.setWidth 32).toNat ≤ (x.setWidth 32).toNat := by rwa [hx, hy]
        apply eq_of_toNat_eq
        rw [toNat_setWidth_of_le hw', toNat_sub_of_le h, toNat_sub_of_le h',
          hx, hy]

end

/-- The code of an intrinsic leaves the LLVM result if and only if the operands have
    the words' width, or their signs do not matter. -/
theorem intrinsics_exact_iff {M : Machine} {S : Scope} {m : Cells} {pc e : Word} {fc : Ctx}
    {g g' : Gen} {w : Nat} (hw : 0 < w) (hw' : w ≤ 32) {i : Intrinsic} {u v : BitVec w}
    {p q : Value} {res : String} {ls : List Line}
    (hu : Denotes fc S (scratchOf S) m (.int w) p u)
    (hv : Denotes fc S (scratchOf S) m (.int w) q v)
    (hr : ResultWord S (S.cell (.word (fc.names.word res))))
    (hz : Steady (scratchOf S) m (S.reg .zero) 0)
    (hemit : fc.emitIntrinsic i p q res g = .ok (ls, g')) (hcode : M.code.Holds S pc ls e)
    (hstop : M.code e = none) :
    Leaves M S (S.cell (.word (fc.names.word res))) ((i.eval u v).setWidth 32) m pc e ↔
      i.Narrows u v := by
  have hruns := leaves_emitIntrinsic (.int hw hw') hu hv hr hz hemit hcode
  rw [← Intrinsic.narrows_iff hw hw']
  exact ⟨fun h => Leaves.eq hstop hruns h, fun h => h ▸ hruns⟩

/-- The symbols of an image that is one intrinsic `f` on bytes. -/
def byteScope : Scope where
  cell := sampleScope.cell
  label l := if l = (sampleCtx.stub "An" sampleGen).1 then 0x110 else 0x118

/-- The absolute value of a byte. -/
def byteAbs (x : BitVec 64) : Except Error (List Line × Gen) :=
  sampleCtx.emitIntrinsic .abs (.const x (some (.int 8))) (.const 0 (some (.int 8))) "r" sampleGen

/-- Its code, in place. -/
def byteMachine (x : BitVec 64) : Machine where
  code a := (layout byteScope 0x100 ((byteAbs x).toOption.elim [] Prod.fst)).lookup a
  chan := 0

theorem byte_target : ResultWord byteScope (byteScope.cell (.word (sampleCtx.names.word "r"))) := by
  refine ⟨by decide, ?_, by decide⟩
  simp [scratchOf]
  decide

theorem byte_zero : Steady (scratchOf byteScope) (fun _ => 0) (byteScope.reg .zero) 0 := by
  refine ⟨by decide, ?_, rfl⟩
  simp [scratchOf]
  decide

theorem byte_label (g : Gen) : byteScope.label (sampleCtx.stub "Aj" g).1 = 0x118 := by
  simp only [byteScope]
  rw [if_neg]
  intro h
  have hchar := congrArg (fun l : String => l.toList[1]?) h
  simp [Ctx.stub] at hchar

theorem byte_holds (x : BitVec 64) : ∃ ls g, byteAbs x = .ok (ls, g) ∧
    (byteMachine x).code.Holds byteScope 0x100 ls 0x118 := by
  refine ⟨_, _, rfl, ?_⟩
  exact ⟨_, rfl, _, rfl, if_pos rfl, _, rfl, byte_label _, rfl⟩

/-- The absolute value of the byte -2 is left as 254. -/
theorem abs_byte_minus_two : ∃ ls g, byteAbs 0xFE = .ok (ls, g) ∧
    (byteMachine 0xFE).code.Holds byteScope 0x100 ls 0x118 ∧
    Leaves (byteMachine 0xFE) byteScope 0x2000 254 (fun _ => 0) 0x100 0x118 ∧
    ¬Leaves (byteMachine 0xFE) byteScope 0x2000
      ((Intrinsic.abs.eval (0xFE : BitVec 8) 0).setWidth 32) (fun _ => 0) 0x100 0x118 := by
  obtain ⟨ls, g, hemit, hcode⟩ := byte_holds 0xFE
  have hruns := leaves_emitIntrinsic (.int (w := 8) (by decide) (by decide)) (.const 0xFE)
    (.const 0) byte_target byte_zero hemit hcode
  refine ⟨ls, g, hemit, hcode, hruns, fun h => ?_⟩
  exact absurd (Leaves.eq rfl hruns h) (by decide)

theorem abs_byte_five : Leaves (byteMachine 5) byteScope 0x2000 5 (fun _ => 0) 0x100 0x118 := by
  obtain ⟨ls, g, hemit, hcode⟩ := byte_holds 5
  exact (intrinsics_exact_iff (w := 8) (by decide) (by decide) (.const 5) (.const 0) byte_target
    byte_zero hemit hcode rfl).mpr (.inr (.inl rfl))

end DmaCpu.Cc
