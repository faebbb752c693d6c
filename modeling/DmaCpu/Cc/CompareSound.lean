-- SUMMARY: Every lowering of a comparison branches on what the comparison is in LLVM.
import DmaCpu.Cc.Sites
import DmaCpu.Lib.Narrow

/-!
# Soundness of comparisons

An integer is kept in a word as its zero extension, a pointer as it is. The forms of
a site agree with the predicate on words; what is left is to go from the operands'
width to words, by the zero extension or, for signed orders, by a sign extension.
-/
namespace DmaCpu.Cc

open Asm Machine

/-! ## Predicates -/

variable {pred : Pred}

theorem Pred.eval_setWidth {w : Nat} (hw : w ≤ 32) (h : pred.signed = false)
    (x y : BitVec w) : pred.eval (x.setWidth 32) (y.setWidth 32) = pred.eval x y := by
  have heq : (x.setWidth 32 == y.setWidth 32) = (x == y) := by
    rw [Bool.eq_iff_iff, beq_iff_eq, beq_iff_eq, ← BitVec.toNat_inj, BitVec.toNat_setWidth_of_le hw,
      BitVec.toNat_setWidth_of_le hw, BitVec.toNat_inj]
  have hlt (x y : BitVec w) : (x.setWidth 32).ult (y.setWidth 32) = x.ult y := by
    rw [BitVec.ult_eq_decide, BitVec.ult_eq_decide, BitVec.toNat_setWidth_of_le hw,
      BitVec.toNat_setWidth_of_le hw]
  cases pred <;> cases h
  case eq => exact heq
  case ne => exact congrArg not heq
  case ult => exact hlt x y
  case ugt => exact hlt y x
  case uge => rw [eval, eval, BitVec.ule_eq_not_ult, BitVec.ule_eq_not_ult, hlt]
  case ule => rw [eval, eval, BitVec.ule_eq_not_ult, BitVec.ule_eq_not_ult, hlt]

theorem Pred.eval_word {w : Nat} (hw : w ≤ 32) (h : ¬(pred.signed = true ∧ w < 32))
    (x y : BitVec w) : pred.eval (x.setWidth 32) (y.setWidth 32) = pred.eval x y := by
  cases hs : pred.signed with
  | false => exact Pred.eval_setWidth hw hs x y
  | true =>
    obtain rfl : w = 32 := Nat.le_antisymm hw (Nat.le_of_not_lt fun hlt => h ⟨hs, hlt⟩)
    rw [BitVec.setWidth_eq, BitVec.setWidth_eq]

theorem Pred.eval_signExtend {w : Nat} (hw : w ≤ 32) (h : pred.signed = true)
    (x y : BitVec w) : pred.eval (x.signExtend 32) (y.signExtend 32) = pred.eval x y := by
  have hlt (x y : BitVec w) : (x.signExtend 32).slt (y.signExtend 32) = x.slt y := by
    rw [BitVec.slt_eq_decide, BitVec.slt_eq_decide, BitVec.toInt_signExtend_of_le hw,
      BitVec.toInt_signExtend_of_le hw]
  cases pred <;> cases h
  case slt => exact hlt x y
  case sgt => exact hlt y x
  case sge => rw [eval, eval, BitVec.sle_eq_not_slt, BitVec.sle_eq_not_slt, hlt]
  case sle => rw [eval, eval, BitVec.sle_eq_not_slt, BitVec.sle_eq_not_slt, hlt]

/-! ## Facts -/

/-- The facts are true of a word. -/
structure Facts.Of (vf : Facts) (x : Word) : Prop where
  nonNeg (h : vf.nonNeg = true) : x.msb = false
  bool (h : vf.bool = true) : x = 0 ∨ x = 1

theorem Facts.of_none (x : Word) : Facts.Of ⟨false, false⟩ x := ⟨nofun, nofun⟩

/-- The flags of a true bound are true. -/
theorem factsOfMax_of {x b : Word} (h : x ≤ b) : (factsOfMax b).Of x := by
  have hx : x.toNat ≤ b.toNat := h
  unfold factsOfMax
  split
  case isTrue hb =>
    have hb' : b.toNat ≤ 1 := hb
    refine ⟨fun _ => ?_, fun _ => ?_⟩
    · rw [msb_iff, decide_eq_false_iff_not]
      omega
    · have hx' : x.toNat = 0 ∨ x.toNat = 1 := by omega
      exact hx'.imp BitVec.eq_of_toNat_eq BitVec.eq_of_toNat_eq
  case isFalse =>
    split
    case isTrue hb =>
      have hb' : b.toNat ≤ 0x7FFFFFFF := hb
      refine ⟨fun _ => ?_, nofun⟩
      rw [msb_iff, decide_eq_false_iff_not]
      omega
    case isFalse => exact Facts.of_none x

variable {nonNeg : Bool} {ls : List Line}

section

variable {M : Machine} {Q : State → Prop} {S H : Scope} {D : Set Word} {m m' : Cells}
  {x y pc e : Word} {a b : Opnd} {fl : Word → Field → Word} {g : Gen} {fc : Ctx} {t f : String}
variable {g' : Gen}

theorem wp_zeroTest {vf : Facts}
    (hp : Placed M S H fc.opts.runtimeExtern (fc.emitZeroTest a vf t f g).2 m)
    (hcode : M.code.Holds S pc (fc.emitZeroTest a vf t f g).1 e)
    (ha : Fixed S (dirty S H) m a x) (hvf : vf.Of x)
    (hend : ∀ m' fl', Off (dirty S H) m m' →
      M.wp Q (if x == 0 then S.label t else S.label f) m' fl') :
    M.wp Q pc m fl := by
  unfold Ctx.emitZeroTest at hp hcode
  split at hcode
  case isTrue hnn =>
    rw [if_pos hnn] at hp
    exact wp_cmpSite (y := 0) hp hcode ha ⟨rfl, rfl⟩ (hvf.nonNeg hnn) hend
  case isFalse hnn =>
    rw [if_neg hnn] at hp
    exact wp_cmpSite (y := 0) hp hcode ha ⟨rfl, rfl⟩ trivial hend

/-- The helper for a signed order, with what is known of the operands. -/
theorem less_spec (hnn : nonNeg = true → x.msb = false ∧ y.msb = false) :
    (if nonNeg then Helper.ltp else .lt).unary = false ∧
      (if nonNeg then Helper.ltp else .lt).Takes x y ∧
        (if nonNeg then Helper.ltp else .lt).holds x y = x.slt y := by
  cases nonNeg with
  | false => exact ⟨rfl, trivial, rfl⟩
  | true =>
    obtain ⟨hx, hy⟩ := hnn rfl
    exact ⟨rfl, ⟨hx, hy⟩, (BitVec.slt_eq_ult_of_msb_eq (hx.trans hy.symm)).symm⟩

/-- The helper for an unsigned order. -/
theorem below_spec (hnn : nonNeg = true → x.msb = false ∧ y.msb = false) :
    (if nonNeg then Helper.ltp else .ltu).unary = false ∧
      (if nonNeg then Helper.ltp else .ltu).Takes x y ∧
        (if nonNeg then Helper.ltp else .ltu).holds x y = x.ult y := by
  cases nonNeg with
  | false => exact ⟨rfl, trivial, rfl⟩
  | true => exact ⟨rfl, hnn rfl, rfl⟩

theorem wp_ordered
    (hp : Placed M S H fc.opts.runtimeExtern (fc.emitOrdered pred a b nonNeg t f g).2 m)
    (hcode : M.code.Holds S pc (fc.emitOrdered pred a b nonNeg t f g).1 e)
    (ha : Fixed S (dirty S H) m a x) (hb : Fixed S (dirty S H) m b y)
    (hnn : nonNeg = true → x.msb = false ∧ y.msb = false) (hend : ∀ m' fl', Off (dirty S H) m m' →
      M.wp Q (if pred.eval x y then S.label t else S.label f) m' fl') :
    M.wp Q pc m fl := by
  obtain ⟨hu, htakes, hless⟩ := less_spec hnn
  obtain ⟨hu', htakes', hless'⟩ := less_spec fun h => (hnn h).symm
  obtain ⟨hub, htakesb, hbelow⟩ := below_spec hnn
  obtain ⟨hub', htakesb', hbelow'⟩ := below_spec fun h => (hnn h).symm
  cases pred
  case eq => exact wp_cmpSite hp hcode ha ⟨rfl, hb⟩ trivial hend
  case ne => exact wp_cmpSite hp hcode ha ⟨rfl, hb⟩ trivial (wp_swap rfl hend)
  case slt => exact wp_cmpSite hp hcode ha ⟨hu, hb⟩ htakes (hless ▸ hend)
  case sge =>
    have hsge : Pred.sge.eval x y = !x.slt y := BitVec.sle_eq_not_slt
    exact wp_cmpSite hp hcode ha ⟨hu, hb⟩ htakes (wp_swap (hless ▸ hsge) hend)
  case sgt => exact wp_cmpSite hp hcode hb ⟨hu', ha⟩ htakes' (hless' ▸ hend)
  case sle =>
    have hsle : Pred.sle.eval x y = !y.slt x := BitVec.sle_eq_not_slt
    exact wp_cmpSite hp hcode hb ⟨hu', ha⟩ htakes' (wp_swap (hless' ▸ hsle) hend)
  case ult => exact wp_cmpSite hp hcode ha ⟨hub, hb⟩ htakesb (hbelow ▸ hend)
  case uge =>
    have huge : Pred.uge.eval x y = !x.ult y := BitVec.ule_eq_not_ult y x
    exact wp_cmpSite hp hcode ha ⟨hub, hb⟩ htakesb (wp_swap (hbelow ▸ huge) hend)
  case ugt => exact wp_cmpSite hp hcode hb ⟨hub', ha⟩ htakesb' (hbelow' ▸ hend)
  case ule =>
    have hule : Pred.ule.eval x y = !y.ult x := BitVec.ule_eq_not_ult x y
    exact wp_cmpSite hp hcode hb ⟨hub', ha⟩ htakesb' (wp_swap (hbelow' ▸ hule) hend)

theorem wp_emitBranch {ins : Icmp} {fa fb : Facts}
    (hp : Placed M S H fc.opts.runtimeExtern (fc.emitBranch ins a b fa fb t f g).2 m)
    (hcode : M.code.Holds S pc (fc.emitBranch ins a b fa fb t f g).1 e)
    (ha : Fixed S (dirty S H) m a x) (hb : Fixed S (dirty S H) m b y)
    (hfa : fa.Of x) (hfb : fb.Of y) (hx : Ctx.isZero ins.x = true → x = 0)
    (hy : Ctx.isZero ins.y = true → y = 0)
    (hend : ∀ m' fl', Off (dirty S H) m m' →
      M.wp Q (if ins.pred.eval x y then S.label t else S.label f) m' fl') :
    M.wp Q pc m fl := by
  unfold Ctx.emitBranch at hp hcode
  split at hcode
  case isTrue hinline =>
    exact wp_inlineCompare (fun p hp => .inl (.inl hp)) hp.zero hcode ha hb hend
  case isFalse hinline =>
    rw [if_neg hinline] at hp
    split at hcode
    case isTrue hzero =>
      rw [if_pos hzero] at hp
      -- The other operand is the one that is tested.
      obtain ⟨v, hv, z, hz, hvf, heq⟩ : ∃ v, (if Ctx.isZero ins.x then (b, fb) else (a, fa)) = v ∧
          ∃ z, Fixed S (dirty S H) m v.1 z ∧ v.2.Of z ∧ (x == y) = (z == 0) := by
        refine ⟨_, rfl, ?_⟩
        split
        case isTrue h => exact ⟨y, hb, hfb, by rw [hx h, Bool.beq_comm]⟩
        case isFalse h => exact ⟨x, ha, hfa, by rw [hy (hzero.2.resolve_right h)]⟩
      rw [hv] at hp hcode
      simp only at hp hcode
      split at hcode
      case isTrue hpred =>
        rw [if_pos hpred] at hp
        rw [hpred, Pred.eval, heq] at hend
        exact wp_zeroTest hp hcode hz hvf hend
      case isFalse hpred =>
        rw [if_neg hpred] at hp
        rw [hzero.1.resolve_left hpred, Pred.eval, bne, heq] at hend
        exact wp_zeroTest hp hcode hz hvf (wp_swap rfl hend)
    case isFalse hzero =>
      rw [if_neg hzero] at hp
      refine wp_ordered hp hcode ha hb (fun hnn => ?_) hend
      rw [Bool.and_eq_true] at hnn
      exact ⟨hfa.nonNeg hnn.1, hfb.nonNeg hnn.2⟩

/-! ## Narrow operands -/

theorem wp_sextInto {C : Set Cell} (hC : Vars S C) {w : Nat} {r : Reg} (hr : r ≠ .null)
    (hcode : M.code.Holds S pc (sextInto a w (rt r)) e)
    (ha : operand m M.sniff [S.scratch.null] (S.src a) = some x)
    (hend : ∀ m', Off {S.reg .null, S.reg r} m m' →
      m' (S.reg r) = (x ^^^ (1 : Word) <<< (w - 1)) - (1 : Word) <<< (w - 1) → M.wp Q e m' fl) :
    M.wp Q pc m fl := by
  simp only [sextInto, holds_ins, holds_nil, Scope.resolve, Instr.map, Scope.src_rt,
    Scope.dst_rt] at hcode
  obtain ⟨n₁, h₁, n₂, h₂, rfl⟩ := hcode
  have hal : Aligned (S.reg r) .word := hC.aligned (hC.rt r)
  have hnull : S.reg r ≠ S.reg .null := hC.reg_ne hr
  have hcell (m : Cells) : operand m M.sniff [S.scratch.null] (.cell (S.reg r)) =
      some (m (S.reg r)) := by
    simp [operand, Scope.scratch, hnull, Cells.load_word hal]
  refine wp_bin h₁ (by decide) ha rfl hal fun j₁ => ?_
  refine wp_bin h₂ (by decide) (hcell _) rfl hal fun j₂ => ?_
  refine hend _ ?_ ?_
  · exact ((((Off.refl _ m).update (by simp [Scope.scratch]) j₁).update (by simp) _).update
      (by simp [Scope.scratch]) j₂).update (by simp) _
  · simp [BinOp.eval]

theorem Placed.off {ext : Option ExternRT} (hp : Placed M S H ext g m)
    (hoff : Off (dirty S H ∪ extended S) m m') : Placed M S H ext g m' where
  images := hp.images
  linked := hp.linked
  text := hp.text
  descText := hp.descText
  data d hd := (hp.data d hd).off hoff
  zero := by
    refine (hoff _ ?_).trans hp.zero
    rintro (h | h | h)
    · exact hp.images.site_notMem (by decide) h
    · exact hp.images.site.reg_ne (by decide) h
    · exact hp.images.site.reg_ne (by decide) h
  hostZero := by
    refine (hoff _ ?_).trans hp.hostZero
    rintro (h | h | h)
    · exact hp.images.host_notMem (by decide) h
    · cases hp.images.apart h.symm
    · cases hp.images.apart h.symm

/-- Both operands are sign-extended. -/
theorem wp_extend {w : Nat} {u v : BitVec w} (hw : 0 < w) (hw' : w ≤ 32)
    (hi : Images S H)
    (hcode : M.code.Holds S pc (sextInto a w (rt .sc0) ++ sextInto b w (rt .sc1)) e)
    (ha : Fixed S (dirty S H ∪ extended S) m a (u.setWidth 32))
    (hb : Fixed S (dirty S H ∪ extended S) m b (v.setWidth 32))
    (hend : ∀ m', Off (dirty S H ∪ extended S) m m' →
      Fixed S (dirty S H) m' (rt .sc0) (u.signExtend 32) →
      Fixed S (dirty S H) m' (rt .sc1) (v.signExtend 32) → M.wp Q e m' fl) :
    M.wp Q pc m fl := by
  obtain ⟨n, h₁, h₂⟩ := holds_append.mp hcode
  have hnull : S.reg .null ∈ dirty S H ∪ extended S := .inl (.inl (.inl (by simp [scratchOf])))
  have havoid : ∀ p ∈ [S.scratch.null], p ∈ dirty S H ∪ extended S := by
    simpa [Scope.scratch] using hnull
  have hsub (r : Reg) (hr : S.reg r ∈ extended S) :
      ({S.reg .null, S.reg r} : Set Word) ⊆ dirty S H ∪ extended S := by
    rintro p (rfl | rfl)
    · exact hnull
    · exact .inr hr
  refine wp_sextInto hi.site (by decide) h₁ (ha.operand_eq havoid _) fun m₁ hoff₁ hsc₀ => ?_
  have hoff₁' := hoff₁.mono (hsub _ (.inl rfl))
  refine wp_sextInto hi.site (by decide) h₂ ((hb.off hoff₁').operand_eq havoid _)
    fun m₂ hoff₂ hsc₁ => ?_
  rw [xor_sub_eq_signExtend hw hw'] at hsc₀ hsc₁
  have hsteady {r : Reg} (hr : r ∉ dirtyRegs) {z : Word} (hz : m₂ (S.reg r) = z) :
      Fixed S (dirty S H) m₂ (rt r) z :=
    .cell (S.src_rt r) ⟨hi.site.aligned (hi.site.rt r), hi.site_notMem hr, hz⟩
  refine hend m₂ (hoff₁'.trans (hoff₂.mono (hsub _ (.inr rfl)))) (hsteady (by decide) ?_)
    (hsteady (by decide) hsc₁)
  rw [hoff₂ _ (by simp [hi.site.reg_eq_iff]), hsc₀]

/-! ## Values -/

/-- The types of comparable values, with their widths. -/
inductive Scalar : Ty → Nat → Prop where
  | int {w : Nat} (hw : 0 < w) (hw' : w ≤ 32) : Scalar (.int w) w
  | ptr : Scalar .ptr 32

/-- A value of type `ty` is `x`: a constant by its number; any other value reads as the
    zero extension of `x`, which is within the bound that is known of it. -/
inductive Denotes (fc : Ctx) (S : Scope) (D : Set Word) (m : Cells) (ty : Ty) {w : Nat} :
    Value → BitVec w → Prop where
  | const (int : BitVec 64) : Denotes fc S D m ty (.const int (some ty)) (int.setWidth w)
  | var {v : Value} {x : BitVec w}
      (hread : ∀ a, fc.names.op v = .ok a → Fixed S D m a (x.setWidth 32))
      (hmax : x.setWidth 32 ≤ fc.facts.boundAt fc.curBlock v) : Denotes fc S D m ty v x

variable {ty : Ty} {w : Nat} {v : Value} {u : BitVec w}

theorem Scalar.width_eq (h : Scalar ty w) : width ty = .ok w := by
  cases h with
  | int hw hw' => simp [width, hw']
  | ptr => rfl

theorem Scalar.pos (h : Scalar ty w) : 0 < w := by
  cases h with
  | int hw hw' => exact hw
  | ptr => decide

theorem Scalar.le (h : Scalar ty w) : w ≤ 32 := by
  cases h with
  | int hw hw' => exact hw'
  | ptr => decide

theorem Scalar.truncConst_eq (h : Scalar ty w) (int : BitVec 64) :
    truncConst int (some ty) = (int.setWidth w).setWidth 32 := by
  cases h with
  | int hw hw' =>
    rw [truncConst]
    split
    case isTrue hlt => rw [and_ones hlt, BitVec.setWidth_setWidth_of_le _ hw']
    case isFalse hge =>
      obtain rfl : w = 32 := by omega
      rw [BitVec.setWidth_eq]
  | ptr => exact (BitVec.setWidth_eq _).symm

theorem Scalar.constMax_eq (h : Scalar ty w) (int : BitVec 64) :
    constMax int (some ty) = (int.setWidth w).setWidth 32 := by
  rw [← h.truncConst_eq]
  cases h with
  | int hw hw' => simp [constMax, truncConst, Nat.one_le_iff_ne_zero, hw.ne']
  | ptr => rfl

section

variable (hty : Scalar ty w) (h : Denotes fc S D m ty v u)
include hty h

theorem Denotes.fixed
    (ha : fc.names.op v = .ok a) : Fixed S D m a (u.setWidth 32) := by
  cases h with
  | const int =>
    obtain rfl : .num (truncConst int (some ty)) = a := Except.ok.inj ha
    exact .lit (by rw [hty.truncConst_eq]; rfl)
  | var hread hmax => exact hread a ha

theorem Denotes.facts :
    (fc.facts.factsAt fc.curBlock v).Of (u.setWidth 32) := by
  refine factsOfMax_of ?_
  cases h with
  | const int => exact BitVec.le_of_eq (hty.constMax_eq int).symm
  | var hread hmax => exact hmax

theorem Denotes.zero
    (hz : Ctx.isZero v = true) : u = 0 := by
  have hzero : u.setWidth 32 = 0 → u = 0 := by
    intro h
    apply BitVec.eq_of_toNat_eq
    rw [← BitVec.toNat_setWidth_of_le hty.le, h]
    rfl
  cases v with
  | const int typ =>
    have hint : int.setWidth 32 = (0 : Word) := by simpa [Ctx.isZero] using hz
    have htrunc : truncConst int typ = 0 := by
      unfold truncConst
      split
      · split
        · rw [hint]
          exact BitVec.zero_and
        · exact hint
      · exact hint
    refine hzero ?_
    cases h.fixed hty rfl with
    | lit h => exact (Src.lit.inj h).symm.trans htrunc
    | cell h _ => cases h
  | global _ _ => cases hz
  | func _ _ => cases hz
  | loc _ _ => cases hz

end

/-! ## Comparisons -/

section

variable {ins : Icmp} {x y : BitVec w} (hty : Scalar ins.typ w) (hx : Denotes fc S (dirty S H ∪ extended S) m ins.typ ins.x x) (hy : Denotes fc S (dirty S H ∪ extended S) m ins.typ ins.y y)
include hty hx hy

theorem wp_compareBranch
    (hemit : fc.emitCompareBranch ins t f g = .ok (ls, g'))
    (hp : Placed M S H fc.opts.runtimeExtern g' m) (hcode : M.code.Holds S pc ls e)
    (hend : ∀ m' fl', Off (dirty S H ∪ extended S) m m' →
      M.wp Q (if ins.pred.eval x y then S.label t else S.label f) m' fl') :
    M.wp Q pc m fl := by
  unfold Ctx.emitCompareBranch at hemit
  rw [hty.width_eq] at hemit
  cases ha : fc.names.op ins.x with
  | error e => simp [ha, bind, Except.bind] at hemit
  | ok a =>
    cases hb : fc.names.op ins.y with
    | error e => simp [ha, hb, bind, Except.bind] at hemit
    | ok b =>
      simp only [ha, hb, bind, Except.bind, pure, Except.pure] at hemit
      have hfa := hx.fixed hty ha
      have hfb := hy.fixed hty hb
      split at hemit
      case isTrue hs =>
        obtain ⟨rfl, rfl⟩ := Prod.mk.inj (Except.ok.inj hemit)
        obtain ⟨n, hext, hcode⟩ := holds_append.mp hcode
        refine wp_extend hty.pos hty.le hp.images hext hfa hfb fun m₁ hoff₁ h₀ h₁ => ?_
        refine wp_emitBranch (hp.off hoff₁) hcode h₀ h₁ (Facts.of_none _) (Facts.of_none _)
          (fun hz => ?_) (fun hz => ?_) fun m' fl' hoff => ?_
        · simp [hx.zero hty hz, BitVec.signExtend_eq_setWidth_of_msb_false]
        · simp [hy.zero hty hz, BitVec.signExtend_eq_setWidth_of_msb_false]
        · rw [Pred.eval_signExtend hty.le hs.1]
          exact hend m' fl' (hoff₁.trans (hoff.mono Set.subset_union_left))
      case isFalse hs =>
        obtain ⟨rfl, rfl⟩ : _ = ls ∧ _ = g' := Prod.ext_iff.mp (Except.ok.inj hemit)
        refine wp_emitBranch hp hcode (hfa.mono Set.subset_union_left)
          (hfb.mono Set.subset_union_left) (hx.facts hty) (hy.facts hty)
          (fun hz => ?_) (fun hz => ?_) fun m' fl' hoff => ?_
        · simp [hx.zero hty hz]
        · simp [hy.zero hty hz]
        · rw [Pred.eval_word hty.le hs]
          exact hend m' fl' (hoff.mono Set.subset_union_left)

/-- The comparison that leaves its result in a word. -/
theorem wp_icmp {res : String}
    (hres : Aligned (S.cell (.word (fc.names.word res))) .word)
    (hemit : fc.emitIcmp ins res g = .ok (ls, g')) (hp : Placed M S H fc.opts.runtimeExtern g' m)
    (hcode : M.code.Holds S pc ls e) (hend : ∀ m' fl', Off (dirty S H ∪ extended S) m m' →
      M.wp Q e (Function.update m' (S.cell (.word (fc.names.word res)))
        (if ins.pred.eval x y then 1 else 0)) fl') :
    M.wp Q pc m fl := by
  simp only [Ctx.emitIcmp] at hemit
  set lt := (fc.stub "Ct" g).1
  set lf := (fc.stub "Cf" (fc.stub "Ct" g).2).1
  cases hbr : fc.emitCompareBranch ins lt lf (fc.stub "Cj" (fc.stub "Cf" (fc.stub "Ct" g).2).2).2 with
  | error e => simp [hbr, bind, Except.bind] at hemit
  | ok p =>
    simp only [hbr, bind, Except.bind, pure, Except.pure] at hemit
    obtain ⟨rfl, rfl⟩ := Prod.mk.inj (Except.ok.inj hemit)
    obtain ⟨n, hls, htail⟩ := holds_append.mp hcode
    simp only [holds_label, holds_ins, holds_nil, Scope.resolve, Instr.map] at htail
    obtain ⟨ht, n₁, hone, n₂, hjump, hf, n₃, hzero, hj, rfl⟩ := htail
    have hdst : S.dst (.cell (.word (fc.names.word res)) 0) =
        .cell (S.cell (.word (fc.names.word res))) := by simp [Scope.dst]
    rw [hdst] at hone hzero
    refine wp_compareBranch hty hx hy hbr hp hls fun m' fl' hoff => ?_
    have hgo := hend m' fl' hoff
    split
    case isTrue hv =>
      rw [if_pos hv] at hgo
      rw [ht]
      refine wp_move hone rfl hres (wp_jump hjump ?_)
      rw [Scope.target, hj]
      exact hgo
    case isFalse hv =>
      rw [if_neg hv] at hgo
      rw [hf]
      exact wp_move hzero rfl hres hgo

end

/-- The branch on a value of type `i1`. -/
theorem wp_boolBranch {cond : Value} {c : BitVec 1}
    (hc : Denotes fc S (dirty S H ∪ extended S) m (.int 1) cond c)
    (hemit : fc.emitBoolBranch cond t f g = .ok (ls, g'))
    (hp : Placed M S H fc.opts.runtimeExtern g' m) (hcode : M.code.Holds S pc ls e)
    (hend : ∀ m' fl', Off (dirty S H ∪ extended S) m m' →
      M.wp Q (if c == 1 then S.label t else S.label f) m' fl') :
    M.wp Q pc m fl := by
  have hty : Scalar (.int 1) 1 := .int (by decide) (by decide)
  unfold Ctx.emitBoolBranch at hemit
  cases ha : fc.names.op cond with
  | error e => simp [ha, bind, Except.bind] at hemit
  | ok a =>
    simp only [ha, bind, Except.bind, pure, Except.pure] at hemit
    have hfa := hc.fixed hty ha
    have hjbool {n} (h : M.code.Holds S pc
        [.ins (.branch (.bool a) (.label t) (.label f))] n) : M.wp Q pc m fl := by
      obtain ⟨n', hbranch, -⟩ := h
      have hread : operand m M.sniff [S.scratch.null] (S.src a) = some (c.setWidth 32) :=
        hfa.operand_eq (by simp [Scope.scratch, dirty, scratchOf]) _
      have hv : (Test.bool (c.setWidth 32)).eval = some (c == 1) := by
        rcases BitVec.eq_zero_or_eq_one c with rfl | rfl <;> rfl
      refine wp_branch hbranch hp.zero (by simp [Test.map, Test.one, Test.read, hread]) hv
        fun m' hoff => hend m' fl (hoff.mono fun p hp => .inl (.inl (.inl hp)))
    split at hemit
    case isTrue hinline =>
      obtain ⟨rfl, rfl⟩ := Prod.mk.inj (Except.ok.inj hemit)
      exact hjbool hcode
    case isFalse hinline =>
      split at hemit
      case isTrue hsite =>
        obtain ⟨rfl, rfl⟩ := Prod.mk.inj (Except.ok.inj hemit)
        exact hjbool hcode.2
      case isFalse hsite =>
        obtain ⟨rfl, rfl⟩ : _ = ls ∧ _ = g' := Prod.ext_iff.mp (Except.ok.inj hemit)
        have hv : (c == 1) = !(c.setWidth 32 == (0 : Word)) := by
          rcases BitVec.eq_zero_or_eq_one c with rfl | rfl <;> rfl
        exact wp_zeroTest hp hcode (hfa.mono Set.subset_union_left) (hc.facts hty)
          fun m' fl' hoff => wp_swap hv hend m' fl' (hoff.mono Set.subset_union_left)

end

/-- From `pc` the machine gets to `target`, and has changed no word outside `D`. -/
def Goes (M : Machine) (D : Set Word) (m : Cells) (pc target : Word) : Prop :=
  ∀ fl, M.wp (fun s => s.pc = target ∧ s.sniffCtrl = M.sniff ∧ Off D m s.cells) pc m fl

theorem goes_refl {M : Machine} {D : Set Word} {m m' : Cells} {target : Word}
    {fl : Word → Field → Word} (h : Off D m m') :
    M.wp (fun s => s.pc = target ∧ s.sniffCtrl = M.sniff ∧ Off D m s.cells) target m' fl :=
  fun _ => .done ⟨rfl, rfl, h⟩

/-- Every lowering of a comparison is exact: the branch it is fused into goes to the
    true target if the predicate holds of the operands and to the false one if not;
    the comparison on its own leaves 1 or 0; and the branch on such a value goes by
    it. -/
theorem comparisons_exact {M : Machine} {S H : Scope} {m : Cells} {pc e : Word} {fc : Ctx} {g : Gen}
    {ins : Icmp} {w : Nat} {x y : BitVec w} (hty : Scalar ins.typ w)
    (hx : Denotes fc S (dirty S H ∪ extended S) m ins.typ ins.x x)
    (hy : Denotes fc S (dirty S H ∪ extended S) m ins.typ ins.y y) :
    (∀ t f ls g', fc.emitCompareBranch ins t f g = .ok (ls, g') →
      Placed M S H fc.opts.runtimeExtern g' m → M.code.Holds S pc ls e →
      Goes M (dirty S H ∪ extended S) m pc
        (if ins.pred.eval x y then S.label t else S.label f)) ∧
    (∀ res ls g', fc.emitIcmp ins res g = .ok (ls, g') →
      Placed M S H fc.opts.runtimeExtern g' m → M.code.Holds S pc ls e →
      Aligned (S.cell (.word (fc.names.word res))) .word →
      ∀ fl, M.wp (fun s => s.pc = e ∧ s.sniffCtrl = M.sniff ∧
        ∃ m', Off (dirty S H ∪ extended S) m m' ∧
          s.cells = Function.update m' (S.cell (.word (fc.names.word res)))
            (if ins.pred.eval x y then 1 else 0)) pc m fl) ∧
    (∀ cond (c : BitVec 1) t f ls g', fc.emitBoolBranch cond t f g = .ok (ls, g') →
      Denotes fc S (dirty S H ∪ extended S) m (.int 1) cond c →
      Placed M S H fc.opts.runtimeExtern g' m → M.code.Holds S pc ls e →
      Goes M (dirty S H ∪ extended S) m pc (if c == 1 then S.label t else S.label f)) := by
  refine ⟨?_, ?_, ?_⟩
  · intro t f ls g' hemit hp hcode fl
    exact wp_compareBranch hty hx hy hemit hp hcode fun m' fl' hoff => goes_refl hoff
  · intro res ls g' hemit hp hcode hres fl
    exact wp_icmp hty hx hy hres hemit hp hcode
      fun m' fl' hoff _ => .done ⟨rfl, rfl, m', hoff, rfl⟩
  · intro cond c t f ls g' hemit hc hp hcode fl
    exact wp_boolBranch hc hemit hp hcode fun m' fl' hoff => goes_refl hoff

/-- The symbols of an image with one comparison; any other label is its site. -/
def sampleScope : Scope where
  cell
    | .rt r => BitVec.ofNat 32 (0x1000 + 4 * r.ctorIdx)
    | .word _ => 0x2000
  label l :=
    if l = "__cw_lt" then 0x200
    else if l = "__cw_lt_t" then 0x230
    else if l = "__cw_lt_f" then 0x238
    else if l = "yes" then 0x300
    else if l = "no" then 0x308
    else 0x120

/-- The comparison of byte `x` with 5. -/
def sampleIcmp : Icmp where
  pred := .slt
  typ := .int 8
  x := .loc "x" (some (.int 8))
  y := .const 5 (some (.int 8))

def sampleCtx : Ctx where
  opts := ⟨false, false, [], [], false, none⟩
  name := "f"
  inRAM := false
  optSize := false
  facts := ⟨fun _ => none, []⟩
  curBlock := 0
  names := ⟨fun _ => false, fun _ => none, fun _ => none, fun _ => none, id⟩

def sampleGen : Gen := ⟨0, 0, [], [], [], [], nofun⟩

/-- Lines in place from `a` on. -/
def layout (S : Scope) : Word → List Line → List (Word × Entry)
  | _, [] => []
  | a, .label _ :: ls => layout S a ls
  | a, .ins i :: ls => (a, ⟨S.resolve i, a + 8, S.scratch⟩) :: layout S (a + 8) ls

/-- Its text. -/
def sampleSite : List Line × Gen :=
  let (ls, g) := sampleCtx.emitBranch sampleIcmp (rt .sc0) (rt .sc1) ⟨false, false⟩ ⟨false, false⟩
    "yes" "no" sampleGen
  (sextInto (.cell (.word "x") 0) 8 (rt .sc0) ++ sextInto (.num 5) 8 (rt .sc1) ++ ls, g)

/-- The text and the helper it uses, in place. -/
def sampleMachine : Machine where
  code a := (layout sampleScope 0x100 sampleSite.1 ++
    layout sampleScope 0x200 Helper.lt.text).lookup a
  chan := 0

def sampleCells : Cells := fun a => if a = 0x2000 then 0xFE else 0

theorem sample_vars : Vars sampleScope (Set.range Cell.rt) where
  rt r := ⟨r, rfl⟩
  aligned := by
    rintro _ ⟨r, rfl⟩
    cases r <;> decide
  inj := by
    rintro _ ⟨r, rfl⟩ _ ⟨s, rfl⟩ h
    have hlt (r : Reg) : r.ctorIdx < 39 := by cases r <;> decide
    have hof (r : Reg) : (sampleScope.cell (.rt r)).toNat = 0x1000 + 4 * r.ctorIdx := by
      have := hlt r
      simp only [sampleScope, BitVec.toNat_ofNat]
      omega
    have heq : r.ctorIdx = s.ctorIdx := by
      have := congrArg BitVec.toNat h
      rw [hof, hof] at this
      omega
    rw [← Reg.ofNat_ctorIdx r, heq, Reg.ofNat_ctorIdx s]

theorem sample_site_label (n : Nat) : sampleScope.label (sampleCtx.cmpSiteName n) = 0x120 := by
  have hne (l : String) (hl : l.toList.head? ≠ some 'c') : sampleCtx.cmpSiteName n ≠ l := by
    rintro rfl
    simp [Ctx.cmpSiteName] at hl
  simp only [sampleScope]
  rw [if_neg (hne _ (by decide)), if_neg (hne _ (by decide)), if_neg (hne _ (by decide)),
    if_neg (hne _ (by decide)), if_neg (hne _ (by decide))]

theorem sample_holds : sampleMachine.code.Holds sampleScope 0x100 sampleSite.1 0x148 :=
  ⟨_, rfl, _, rfl, _, rfl, _, rfl, sample_site_label _, _, rfl, _, rfl, _, rfl, _, rfl, _, rfl, rfl⟩

theorem sample_placed : Placed sampleMachine sampleScope sampleScope none sampleSite.2 sampleCells where
  images :=
    { site := sample_vars
      host := sample_vars
      row := ⟨by decide, by decide, by decide⟩
      apart := sample_vars.reg_eq_iff.mp }
  linked := .own rfl
  text := by
    intro h hh
    obtain rfl : h = .lt := List.mem_singleton.mp hh
    exact ⟨_, rfl, _, rfl, _, rfl, _, rfl, _, rfl, _, rfl, _, rfl, rfl, _, rfl, rfl, _, rfl, rfl⟩
  descText := nofun
  data := nofun
  zero := rfl
  hostZero := rfl

theorem sample_apart : (0x2000 : Word) ∉ dirty sampleScope sampleScope ∪ extended sampleScope := by
  have hne (r : Reg) : (0x2000 : Word) ≠ sampleScope.reg r := by cases r <;> decide
  rintro (h | h | h)
  · obtain ⟨r, -, h | h⟩ := exists_reg_of_mem_dirty h
    · exact hne r h
    · exact hne r h
  · exact hne _ h
  · exact hne _ h

theorem comparisons_exact_bytes : Goes sampleMachine
    (dirty sampleScope sampleScope ∪ extended sampleScope) sampleCells 0x100 0x300 := by
  have hty : Scalar sampleIcmp.typ 8 := .int (by decide) (by decide)
  have hx : Denotes sampleCtx sampleScope (dirty sampleScope sampleScope ∪ extended sampleScope)
      sampleCells sampleIcmp.typ sampleIcmp.x (0xFE : BitVec 8) := by
    refine .var (fun a ha => ?_) (by decide)
    obtain rfl : .cell (.word "x") 0 = a := Except.ok.inj ha
    exact .cell rfl ⟨by decide, sample_apart, rfl⟩
  have hy : Denotes sampleCtx sampleScope (dirty sampleScope sampleScope ∪ extended sampleScope)
      sampleCells sampleIcmp.typ sampleIcmp.y (5 : BitVec 8) := .const 5
  exact (comparisons_exact hty hx hy).1 "yes" "no" _ sampleSite.2 rfl sample_placed sample_holds

end DmaCpu.Cc
