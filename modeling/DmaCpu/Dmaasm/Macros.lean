-- SUMMARY: The moves of every macro as the planner sees them, in both passes.
import DmaCpu.Dmaasm.PlanSpec
import DmaCpu.Dmaasm.Emit

/-!
# Macros

In the compact encoding every instruction but `move` is made of single transfers.
For those the planner only has to know whether sniff is selected.
-/
namespace DmaCpu.Dmaasm

open Emu Fallible

/-! ## Single transfers -/

/-- A block of one transfer, or of none. -/
def Cshape.isOnce (s : Cshape) : Bool :=
  (s.count == 0 || s.count == 1) && !s.dyn && !s.halt && s.cntAfter == 0

/-- If it goes to the program counter then on plain. -/
def Cshape.isTame (s : Cshape) : Bool := s.isOnce && (s.bank == .plain || !s.dstPc)

variable {ss : List Cshape} {ss' : List Cshape}

theorem isOnce_of_isTame (h : ss.all Cshape.isTame = true) : ss.all Cshape.isOnce = true := by
  rw [List.all_eq_true] at h ⊢
  exact fun s hs => (Bool.and_eq_true_iff.mp (h s hs)).1

/-- All counts are 1, and sniff is selected or plain is. -/
def Cstate.single (onSniff : Bool) : Cstate := { Cstate.init with bank := if onSniff then .sniff else .plain }

/-- The records of a single transfer, and whether sniff is selected behind them. -/
def Cshape.quick (onSniff : Bool) (s : Cshape) : List Prim × Bool :=
  match onSniff, s.bank with
  | true, .plain =>
    if s.srcSniff then
      if s.dstPc then ([.stageRead, .switch .plain, .stagePush], false) else ([.record], true)
    else ([.switch .plain, .record], false)
  | true, .sniff => ([.record], true)
  | false, .sniff => ([.switch .sniff, .record], true)
  | false, .plain => ([.record], false)
  | _, b => ([.switch b, .record], false)

def quickAll (onSniff : Bool) : List Cshape → List Prim × Bool
  | [] => ([], onSniff)
  | s :: ss =>
    let (ps, onSniff) := s.quick onSniff
    let (qs, onSniff) := quickAll onSniff ss
    (ps ++ qs, onSniff)

variable {s : Cshape}

theorem plan_single (hs : s.isOnce = true) (onSniff : Bool) :
    (Cstate.single onSniff).plan s = ((s.quick onSniff).1, .single (s.quick onSniff).2) := by
  obtain ⟨bank, count, srcSniff, dstPc, dyn, halt, cntAfter⟩ := s
  simp only [Cshape.isOnce, Bool.and_eq_true, Bool.or_eq_true, beq_iff_eq, Bool.not_eq_true'] at hs
  obtain ⟨⟨⟨hcount, rfl⟩, rfl⟩, rfl⟩ := hs
  rcases hcount with rfl | rfl <;> cases onSniff <;> cases bank <;> cases srcSniff <;> cases dstPc <;> rfl

theorem planAll_single (hss : ss.all Cshape.isOnce = true) (onSniff : Bool) :
    (Cstate.single onSniff).planAll ss = ((quickAll onSniff ss).1, .single (quickAll onSniff ss).2) := by
  induction ss generalizing onSniff with
  | nil => rfl
  | cons s ss ih =>
    rw [List.all_cons, Bool.and_eq_true] at hss
    obtain ⟨hs, hss⟩ := hss
    simp [Cstate.planAll, plan_single hs, ih hss, quickAll]

/-- The end of an instruction: back to plain. -/
theorem planSync_single (onSniff : Bool) :
    (Cstate.single onSniff).planSync = (if onSniff then [.switch .plain] else [], .init) := by
  cases onSniff <;> rfl

theorem planInstr_single (hss : ss.all Cshape.isOnce = true) :
    planInstr ss = (quickAll false ss).1 ++ if (quickAll false ss).2 then [.switch .plain] else [] := by
  have h := planAll_single hss false
  have hinit : Cstate.single false = .init := rfl
  rw [hinit] at h
  simp [planInstr, h, planSync_single]

theorem quickAll_append (b : Bool) (ss ss' : List Cshape) : quickAll b (ss ++ ss') =
    ((quickAll b ss).1 ++ (quickAll (quickAll b ss).2 ss').1, (quickAll (quickAll b ss).2 ss').2) := by
  induction ss generalizing b with
  | nil => rfl
  | cons s ss ih => simp only [List.cons_append, quickAll, ih, List.append_assoc]

/-- What the planner makes of an instruction in the two passes: the same, or one record
    more in the second. -/
structure Planned (longer : Bool) (shapes ss : List Cshape) : Prop where
  same : longer = false → Cstate.init.planAll ss = Cstate.init.planAll shapes
  more : longer = true → (planInstr ss).length = (planInstr shapes).length + 1
  nonempty : ss ≠ []

/-- The same for an instruction of single transfers. -/
structure PlannedOnce (longer : Bool) (shapes ss : List Cshape) : Prop extends Planned longer shapes ss where
  tame : ss.all Cshape.isTame = true

theorem PlannedOnce.of_quick {longer : Bool} {shapes : List Cshape} (hshapes : shapes.all Cshape.isOnce = true)
    (htame : ss.all Cshape.isTame = true)
    (hsame : longer = false → quickAll false ss = quickAll false shapes)
    (hmore : longer = true → ∃ ps, quickAll false shapes = (ps ++ [.record], true) ∧
      quickAll false ss = (ps ++ [.stageRead, .switch .plain, .stagePush], false)) (hne : ss ≠ []) :
    PlannedOnce longer shapes ss := by
  have hss := isOnce_of_isTame htame
  refine ⟨⟨fun h => ?_, fun h => ?_, hne⟩, htame⟩
  · have hinit : Cstate.init = .single false := rfl
    rw [hinit, planAll_single hss, planAll_single hshapes, hsame h]
  · obtain ⟨ps, h₁, h₂⟩ := hmore h
    rw [planInstr_single hss, planInstr_single hshapes, h₁, h₂]
    simp

theorem PlannedOnce.of_same {longer : Bool} {shapes : List Cshape} (hlonger : longer = false)
    (hshapes : shapes.all Cshape.isOnce = true) (htame : ss.all Cshape.isTame = true)
    (hsame : quickAll false ss = quickAll false shapes) (hne : ss ≠ []) : PlannedOnce longer shapes ss :=
  .of_quick hshapes htame (fun _ => hsame)
    (fun h => absurd (hlonger.symm.trans h) Bool.false_ne_true) hne

/-! ## Moves -/

/-- The channels that `Assemble` sets in the compact encoding. -/
structure Options.IsCompact (o : Options) : Prop where
  compact : o.compact = true
  fetch : o.fetch = Compact.fetch
  fix : o.fix = Compact.fetch

variable {o : Options}

theorem Options.isCompact_defaults (h : o.compact = true) : o.defaults.IsCompact := by
  simp only [defaults, h, if_true]
  exact ⟨rfl, rfl, rfl⟩

namespace EmitCtx

variable (c : EmitCtx)

/-- The shape of a move, if there is a bank for it. -/
def shapeOf (m : Mv) : Option Cshape :=
  (classifyCtrl c.opts.cfg c.opts.variant m.ctrl).map (c.shape m)

def shapes (c : EmitCtx) : List Mv → Option (List Cshape)
  | [] => some []
  | m :: ms => (c.shapeOf m).bind fun s => (c.shapes ms).map (s :: ·)

variable {ms : List Mv}

theorem shapes_cons {m : Mv} (h : c.shapeOf m = some s)
    (h' : c.shapes ms = some ss) : c.shapes (m :: ms) = some (s :: ss) := by
  simp [shapes, h, h']

theorem shapes_append {ms' : List Mv} (h : c.shapes ms = some ss)
    (h' : c.shapes ms' = some ss') : c.shapes (ms ++ ms') = some (ss ++ ss') := by
  induction ms generalizing ss with
  | nil =>
    cases h
    exact h'
  | cons m ms ih =>
    obtain ⟨s, hs, h⟩ := Option.bind_eq_some_iff.mp h
    obtain ⟨ss₁, hss, rfl⟩ := Option.map_eq_some_iff.mp h
    simp [shapes, hs, ih hss]

theorem records_cons {m : Mv} {bank : Bank} (h : classifyCtrl c.opts.cfg c.opts.variant m.ctrl = some bank)
    (st : Cstate) (ms : List Mv) : c.records st (m :: ms) =
      (c.records (st.plan (c.shape m bank)).2 ms).map fun (rs, st') =>
        ((st.plan (c.shape m bank)).1.map (c.recordOf m) ++ rs, st') := by
  simp [records, h]

/-- As many records as the planner says. -/
theorem records_eq_ok {st st' : Cstate} {rs : List (Ptr × Ptr)} : c.records st ms = .ok (rs, st') →
      ∃ ss, c.shapes ms = some ss ∧ st' = (st.planAll ss).2 ∧ rs.length = (st.planAll ss).1.length := by
  induction ms generalizing st rs with
  | nil =>
    intro h
    cases h
    exact ⟨[], rfl, rfl, rfl⟩
  | cons m ms ih =>
    intro h
    cases hbank : classifyCtrl c.opts.cfg c.opts.variant m.ctrl with
    | none =>
      simp only [records, hbank] at h
      cases h
    | some bank =>
      rw [c.records_cons hbank] at h
      obtain ⟨⟨rs', st₁⟩, hrest, heq⟩ := map_eq_ok.mp h
      cases heq
      obtain ⟨ss, hss, hst, hlen⟩ := ih hrest
      refine ⟨c.shape m bank :: ss, ?_, hst, ?_⟩
      · simp [shapes, shapeOf, hbank, hss]
      · simp [hlen, Cstate.planAll]

theorem records_shapes (h : c.shapes ms = some ss) (st : Cstate) :
    ∃ rs, c.records st ms = .ok (rs, (st.planAll ss).2) ∧ rs.length = (st.planAll ss).1.length := by
  induction ms generalizing st ss with
  | nil =>
    cases h
    exact ⟨[], rfl, rfl⟩
  | cons m ms ih =>
    obtain ⟨s, hs, h⟩ := Option.bind_eq_some_iff.mp h
    obtain ⟨ss₁, hss, rfl⟩ := Option.map_eq_some_iff.mp h
    obtain ⟨bank, hbank, rfl⟩ := Option.map_eq_some_iff.mp hs
    obtain ⟨rs, hrs, hlen⟩ := ih hss (st.plan (c.shape m bank)).2
    rw [c.records_cons hbank, hrs]
    refine ⟨_, rfl, ?_⟩
    simp [hlen, Cstate.planAll]

/-- The shape of an addition to the accumulator. -/
def summed (src : Ptr) : Cshape := { bank := .sniff, count := 1, srcSniff := src == c.sniffP }

/-- The shape of a single transfer. -/
def once (b : Bank) (src dst : Ptr) : Cshape :=
  { bank := b, count := 1, srcSniff := src == c.sniffP, dstPc := dst == c.pcP }

end EmitCtx

/-- Of the configuration only the channel that blocks chain to matters. -/
theorem execCtrl_compact (ho : o.IsCompact) (v : Variant) :
    o.cfg.execCtrl v = (⟨0, 0, Compact.fetch, 0, 0⟩ : FetchExecConfig).execCtrl v := by
  simp [FetchExecConfig.execCtrl, Options.cfg, ho.fix]

theorem classifyCtrl_compact (ho : o.IsCompact) (v : Variant) (ctrl : Word) :
    classifyCtrl o.cfg v ctrl = classifyCtrl ⟨0, 0, Compact.fetch, 0, 0⟩ v ctrl := by
  simp [classifyCtrl, execCtrl_compact ho]

theorem classifyCtrl_exec (ho : o.IsCompact) :
    classifyCtrl o.cfg o.variant (o.cfg.execCtrl o.variant) = some .plain ∧
    classifyCtrl o.cfg o.variant (o.cfg.execCtrl o.variant ||| o.variant.ctrlSniffEn) = some .sniff ∧
    classifyCtrl o.cfg o.variant (o.cfg.execCtrl o.variant ||| o.variant.ctrlBswap) = some .bswap := by
  rw [classifyCtrl_compact ho, classifyCtrl_compact ho, classifyCtrl_compact ho, execCtrl_compact ho]
  cases o.variant <;> decide +kernel

section

variable {c : EmitCtx} (hc : c.opts.IsCompact) (src dst : Ptr)
include hc

theorem pcP_eq : c.pcP = .abs (chanRegAddr Compact.fetch offReadAddr) := by
  rw [EmitCtx.pcP, Options.pcAddr, hc.fetch]

theorem shape_once (m : Mv) (hcount : m.count = 1) (hdyn : m.dyn = false) (b : Bank) :
    c.shape m b = c.once b m.src m.dst := by
  simp [EmitCtx.shape, EmitCtx.once, pcP_eq hc, hcount, hdyn]

theorem shapeOf_mv : c.shapeOf (c.mv src dst) = some (c.once .plain src dst) := by
  rw [EmitCtx.shapeOf, show (c.mv src dst).ctrl = c.opts.cfg.execCtrl c.opts.variant from rfl,
    (classifyCtrl_exec hc).1, Option.map_some, shape_once hc _ rfl rfl]
  rfl

theorem shapeOf_mvB : c.shapeOf (c.mvB src dst) = some (c.once .bswap src dst) := by
  rw [EmitCtx.shapeOf, show (c.mvB src dst).ctrl = c.opts.cfg.execCtrl c.opts.variant |||
    c.opts.variant.ctrlBswap from rfl, (classifyCtrl_exec hc).2.2, Option.map_some, shape_once hc _ rfl rfl]
  rfl

end

variable {p : Ptr} {name : String}

/-- A symbol is not an address. -/
theorem symP_ne_abs {c : EmitCtx} (h : c.symP name = .ok p) (addr : Word) :
    (p == .abs addr) = false := by
  unfold EmitCtx.symP Asm.symP Asm.resolve at h
  dsimp only at h
  split at h
  · cases h
  · split at h
    · cases h
    · cases h
      rfl

section

variable {c : EmitCtx} (hc : c.opts.IsCompact) (b : Bank) (src : Ptr)
include hc

/-- The registers of the assembler and of the sniffer are not the program counter. -/
theorem once_null : c.once b src c.nullP = { bank := b, count := 1, srcSniff := src == c.sniffP } := by
  have hnull : (c.nullP == c.pcP) = false := by
    unfold EmitCtx.nullP EmitCtx.regP
    split
    next h => exact symP_ne_abs h _
    next =>
      rw [pcP_eq hc]
      decide +kernel
  simp [EmitCtx.once, hnull]

theorem shapeOf_mvS : c.shapeOf (c.mvS src c.nullP) = some (c.summed src) := by
  rw [EmitCtx.shapeOf, show (c.mvS src c.nullP).ctrl = c.opts.cfg.execCtrl c.opts.variant |||
    c.opts.variant.ctrlSniffEn from rfl, (classifyCtrl_exec hc).2.1, Option.map_some, shape_once hc _ rfl rfl]
  exact congrArg some (once_null hc .sniff src)

theorem once_sniffP : c.once b src c.sniffP = { bank := b, count := 1, srcSniff := src == c.sniffP } := by
  have hsniff : (c.sniffP == c.pcP) = false := by
    rw [pcP_eq hc, EmitCtx.sniffP]
    cases c.opts.variant <;> decide +kernel
  simp [EmitCtx.once, hsniff]

end

/-! ## The two passes on one instruction -/

/-- An operand that is the address of the program counter, but not by its name. -/
def Options.absPc (o : Options) (line : Nat) (s : String) : Bool :=
  match o.parseOperand line s with
  | .ok op => op.kind == .abs && op.num == o.pcAddr
  | .error _ => false

/-- An instruction that reads the accumulator from sniff into such an operand. -/
def Options.strayPc (o : Options) (line : Nat) (mnem : Mnem) (args : List String) : Bool :=
  match mnem with
  | .add | .sub => o.absPc line (args.getD 2 "")
  | .shl => o.absPc line (args.getD 1 "")
  | .mulc => parseNum (args.getD 1 "") != some 0 && o.absPc line (args.getD 2 "")
  | _ => false

/-- Pass 1 knows the program counter by name only. -/
theorem arg_eq_pc {c : EmitCtx} {s : String} (h : c.arg s = .ok p) :
    (p == c.pcP) = (c.opts.opIsPc c.line s || c.opts.absPc c.line s) := by
  obtain ⟨op, hop, hp⟩ := bind_eq_ok.mp h
  simp only [Options.opIsPc, Options.absPc, hop, EmitCtx.pcP]
  unfold Asm.resolve at hp
  rcases hkind : op.kind with _ | _ | _ | _ <;> rw [hkind] at hp <;> dsimp only at hp
  · split at hp
    · cases hp
    · split at hp
      · cases hp
      · cases hp
        rfl
  · cases hp
    unfold Asm.litPtr
    split <;> rfl
  · cases hp
    cases hpc : op.num == c.opts.pcAddr <;> simp_all
  · cases hp
    cases hpc : op.num == c.opts.pcAddr <;> simp_all

theorem opIsPc_absPc {line : Nat} {s : String} (h : o.absPc line s = true) :
    o.opIsPc line s = false := by
  unfold Options.absPc at h
  unfold Options.opIsPc
  cases hop : o.parseOperand line s with
  | error e => rfl
  | ok op =>
    rw [hop, Bool.and_eq_true, beq_iff_eq] at h
    dsimp only
    rw [h.1]
    rfl

section

variable {c : EmitCtx} {sc : ScanCtx} (hc : c.opts.IsCompact) (hopts : sc.opts = c.opts) (hline : sc.line = c.line)

include hopts hline in
/-- A read of the accumulator at the end of an instruction. It is deferred if sniff is
    selected, and only then matters where it goes. -/
theorem PlannedOnce.read (pre pre' : List Cshape) {onSniff : Bool} {s : String} {d : Ptr}
    (hpre : pre.all Cshape.isOnce = true) (hpre' : pre'.all Cshape.isTame = true)
    (hsame : quickAll false pre' = quickAll false pre) (hon : (quickAll false pre).2 = onSniff)
    (harg : c.arg s = .ok d) :
    PlannedOnce (onSniff && c.opts.absPc c.line s) (pre ++ [sc.rd s]) (pre' ++ [c.once .plain c.sniffP d]) := by
  refine .of_quick ?_ ?_ (fun h => ?_) (fun h => ?_) (List.append_ne_nil_of_right_ne_nil _ (List.cons_ne_nil _ _))
  · rw [List.all_append, hpre]
    rfl
  · rw [List.all_append, hpre']
    rfl
  · rw [quickAll_append, quickAll_append, hsame, hon]
    cases onSniff with
    | false => rfl
    | true =>
      have hpc := arg_eq_pc harg
      rw [show c.opts.absPc c.line s = false from h, Bool.or_false] at hpc
      simp [EmitCtx.once, ScanCtx.rd, hpc, hopts, hline]
  · rw [Bool.and_eq_true] at h
    have hpc := arg_eq_pc harg
    rw [h.2] at hpc
    rw [quickAll_append, quickAll_append, hsame, hon, h.1]
    simp only [quickAll, Cshape.quick, EmitCtx.once, ScanCtx.rd, beq_self_eq_true, hpc, hopts, hline,
      opIsPc_absPc h.2, if_true, Bool.false_eq_true, if_false, List.append_nil]
    exact ⟨_, rfl, rfl⟩

/-! ## The binary method -/

/-- A list of transfers on sniff. -/
def AllSniff (ss : List Cshape) : Prop := ∀ s ∈ ss, s.bank = .sniff

theorem quick_sniff (h : s.bank = .sniff) (b : Bool) :
    s.quick b = (if b then [.record] else [.switch .sniff, .record], true) := by
  simp only [Cshape.quick, h]
  cases b <;> rfl

theorem AllSniff.quickAll_eq (h : AllSniff ss) (h' : AllSniff ss')
    (hlen : ss.length = ss'.length) (b : Bool) : quickAll b ss = quickAll b ss' := by
  induction ss generalizing ss' b with
  | nil => rw [List.eq_nil_of_length_eq_zero hlen.symm]
  | cons s ss ih =>
    obtain _ | ⟨s', ss'⟩ := ss'
    · cases hlen
    obtain ⟨hs, hss⟩ := List.forall_mem_cons.mp h
    obtain ⟨hs', hss'⟩ := List.forall_mem_cons.mp h'
    simp [quickAll, quick_sniff hs, quick_sniff hs', ih hss hss' (Nat.succ.inj hlen)]

theorem AllSniff.onSniff (h : AllSniff ss) (b : Bool) : (quickAll b ss).2 = (b || !ss.isEmpty) := by
  induction ss generalizing b with
  | nil => exact (Bool.or_false b).symm
  | cons s ss ih =>
    obtain ⟨hs, hss⟩ := List.forall_mem_cons.mp h
    simp [quickAll, quick_sniff hs, ih hss]

theorem mulcShapes_allSniff (k : Word) (started : Bool) (b : Nat) : AllSniff (mulcShapes k started b) := by
  induction b generalizing started with
  | zero => exact nofun
  | succ b ih =>
    have hopt (p : Bool) : AllSniff (if p then [sh .sniff] else []) := by
      cases p
      · exact nofun
      · exact List.forall_mem_singleton.mpr rfl
    exact List.forall_mem_append.mpr ⟨List.forall_mem_append.mpr ⟨hopt _, hopt _⟩, ih _⟩

theorem mulcShapes_isOnce (k : Word) (started : Bool) (b : Nat) :
    (mulcShapes k started b).all Cshape.isOnce = true := by
  induction b generalizing started with
  | zero => rfl
  | succ b ih =>
    rw [mulcShapes, List.all_append, ih]
    cases started <;> cases k.getLsbD b <;> rfl

/-- Nothing is added only if no bit is set. -/
theorem mulcShapes_isEmpty (k : Word) (b : Nat) :
    (mulcShapes k false b).isEmpty = true ↔ ∀ i < b, k.getLsbD i = false := by
  induction b with
  | zero => exact ⟨fun _ => nofun, fun _ => rfl⟩
  | succ b ih =>
    rw [mulcShapes]
    cases hbit : k.getLsbD b with
    | true => exact ⟨nofun, fun h => nomatch hbit.symm.trans (h b b.lt_succ_self)⟩
    | false =>
      rw [Nat.forall_lt_succ_right, ← ih]
      exact ⟨fun h => ⟨h, hbit⟩, fun h => h.1⟩

theorem mulcShapes_isEmpty_eq (k : Word) : (mulcShapes k false 32).isEmpty = (k == 0) := by
  rw [Bool.eq_iff_iff, mulcShapes_isEmpty, beq_iff_eq]
  refine ⟨fun h => BitVec.eq_of_getLsbD_eq fun i hi => ?_, ?_⟩
  · rw [h i hi]
    exact BitVec.getLsbD_zero.symm
  · rintro rfl i -
    exact BitVec.getLsbD_zero

include hc in
theorem mulcMoves_shapes (v : Ptr) (k : Word) (started : Bool) (b : Nat) :
    ∃ ss, c.shapes (c.mulcMoves v k started b) = some ss ∧ ss.all Cshape.isTame = true ∧ AllSniff ss ∧
      ss.length = (mulcShapes k started b).length := by
  induction b generalizing started with
  | zero => exact ⟨[], rfl, rfl, nofun, rfl⟩
  | succ b ih =>
    obtain ⟨ss, hss, hone, hsniff, hlen⟩ := ih (started || k.getLsbD b)
    have hopt (p : Bool) (src : Ptr) : ∃ xs, c.shapes (if p then [c.mvS src c.nullP] else []) = some xs ∧
        xs.all Cshape.isTame = true ∧ AllSniff xs ∧ xs.length = (if p then [sh .sniff] else []).length := by
      cases p with
      | false => exact ⟨[], rfl, rfl, nofun, rfl⟩
      | true =>
        refine ⟨[c.summed src], ?_, rfl, List.forall_mem_singleton.mpr rfl, rfl⟩
        simp [EmitCtx.shapes, shapeOf_mvS hc]
    obtain ⟨xs, hxs, hxone, hxsniff, hxlen⟩ := hopt started c.sniffP
    obtain ⟨ys, hys, hyone, hysniff, hylen⟩ := hopt (k.getLsbD b) v
    refine ⟨xs ++ ys ++ ss, ?_, ?_, ?_, ?_⟩
    · exact c.shapes_append (c.shapes_append hxs hys) hss
    · simp [hxone, hyone, hone]
    · exact List.forall_mem_append.mpr ⟨List.forall_mem_append.mpr ⟨hxsniff, hysniff⟩, hsniff⟩
    · simp [mulcShapes, hxlen, hylen, hlen]

end

/-! ## Every instruction -/

/-- The moves have shapes, and they are such. -/
def EmitCtx.HasShapes (c : EmitCtx) (ms : List Mv) (P : List Cshape → Prop) : Prop :=
  ∃ ss, c.shapes ms = some ss ∧ P ss

section

variable {c : EmitCtx} {sc : ScanCtx} (hc : c.opts.IsCompact) {P : List Cshape → Prop}

theorem hasShapes_nil : c.HasShapes [] P ↔ P [] :=
  ⟨fun ⟨_, h, hP⟩ => Option.some.inj h ▸ hP, fun h => ⟨[], rfl, h⟩⟩

theorem hasShapes_cons {m : Mv} (hs : c.shapeOf m = some s) (ms : List Mv) :
    c.HasShapes (m :: ms) P ↔ c.HasShapes ms fun ss => P (s :: ss) := by
  simp only [EmitCtx.HasShapes, EmitCtx.shapes, hs, Option.bind_some, Option.map_eq_some_iff]
  constructor
  · rintro ⟨_, ⟨ss, hss, rfl⟩, hP⟩
    exact ⟨ss, hss, hP⟩
  · rintro ⟨ss, hss, hP⟩
    exact ⟨_, ⟨ss, hss, rfl⟩, hP⟩

include hc

theorem hasShapes_mv (src dst : Ptr) (ms : List Mv) :
    c.HasShapes (c.mv src dst :: ms) P ↔ c.HasShapes ms fun ss => P (c.once .plain src dst :: ss) :=
  hasShapes_cons (shapeOf_mv hc src dst) ms

theorem hasShapes_mvS (src : Ptr) (ms : List Mv) :
    c.HasShapes (c.mvS src c.nullP :: ms) P ↔ c.HasShapes ms fun ss => P (c.summed src :: ss) :=
  hasShapes_cons (shapeOf_mvS hc src) ms

theorem hasShapes_mvB (src dst : Ptr) (ms : List Mv) :
    c.HasShapes (c.mvB src dst :: ms) P ↔ c.HasShapes ms fun ss => P (c.once .bswap src dst :: ss) :=
  hasShapes_cons (shapeOf_mvB hc src dst) ms

end

variable {what : String}

theorem needRegs_eq_ok {sc : ScanCtx} {α : Type} {x : Except AsmError α} {a : α} :
    sc.needRegs what x = .ok a ↔ sc.hasRegs = true ∧ x = .ok a := by
  unfold ScanCtx.needRegs
  split
  next h => exact ⟨fun hx => ⟨h, hx⟩, fun hx => hx.2⟩
  next h => exact ⟨nofun, fun hx => absurd hx.1 h⟩

theorem once_pc (c : EmitCtx) : c.once .plain c.sniffP c.pcP = rdPc := by
  simp only [EmitCtx.once, beq_self_eq_true]
  rfl

/-- Where plain is selected, a block is planned the same wherever it reads and writes. -/
theorem plan_init (bank : Bank) (count : Word) (dyn srcSniff dstPc srcSniff' dstPc' : Bool) :
    Cstate.init.plan ⟨bank, count, srcSniff, dstPc, dyn, false, 0⟩ =
      Cstate.init.plan ⟨bank, count, srcSniff', dstPc', dyn, false, 0⟩ := by
  have hdefers (s : Cshape) (k : Word) : Cstate.init.defers s k = false := by
    simp only [Cstate.defers, Cstate.init]
    cases s.srcSniff <;> rfl
  simp only [Cstate.plan, hdefers]
  rfl

/-- A read of the accumulator into one of the assembler's own registers. -/
theorem once_symP {c : EmitCtx} (sc : ScanCtx) (h : c.symP name = .ok p) :
    c.once .plain c.sniffP p = sc.rd "at" := by
  simp only [EmitCtx.once, beq_self_eq_true, EmitCtx.pcP, symP_ne_abs h]
  rfl

theorem once_bswap_symP {c : EmitCtx} (h : c.symP name = .ok p) :
    c.once .bswap c.sniffP p = { bank := .bswap, count := 1, srcSniff := true } := by
  simp [EmitCtx.once, EmitCtx.pcP, symP_ne_abs h]

/-- A move from one of them. -/
theorem once_of_symP {c : EmitCtx} (h : c.symP name = .ok p) (dst : Ptr) :
    c.once .plain p dst = { bank := .plain, count := 1, dstPc := dst == c.pcP } := by
  simp [EmitCtx.once, EmitCtx.sniffP, symP_ne_abs h]

section

variable {c : EmitCtx} {sc : ScanCtx} {args : List String} {shapes : List Cshape} {acts : List Act} {ms : List Mv}
  {gen pair : Nat}

theorem scanned {f : List Act → List Act}
    (h : sc.needRegs what ((sc.scan args).map fun acts => (ss, f acts)) = .ok (shapes, acts)) : shapes = ss := by
  obtain ⟨_, -, heq⟩ := map_eq_ok.mp (needRegs_eq_ok.mp h).2
  exact (congrArg Prod.fst heq).symm

theorem scannedSign {p : Jpair} {as : List Act}
    (h : sc.needRegs what (sc.scanSign p args ss as) = .ok (shapes, acts)) : shapes = ss := by
  obtain ⟨_, -, heq⟩ := map_eq_ok.mp (needRegs_eq_ok.mp h).2
  exact (congrArg Prod.fst heq).symm

theorem threeArgs {x y z : String} {f : Ptr → Ptr → Ptr → List Mv × Nat × Nat}
    (h : (do let a ← c.arg x; let b ← c.arg y; let d ← c.arg z; return f a b d) = Except.ok (ms, gen, pair)) :
    ∃ a b d, c.arg z = .ok d ∧ f a b d = (ms, gen, pair) := by
  obtain ⟨a, -, h⟩ := bind_eq_ok.mp h
  obtain ⟨b, -, h⟩ := bind_eq_ok.mp h
  obtain ⟨d, hd, h⟩ := bind_eq_ok.mp h
  exact ⟨a, b, d, hd, Except.ok.inj h⟩

end

section

variable {c : EmitCtx} {sc : ScanCtx} (hc : c.opts.IsCompact) (hopts : sc.opts = c.opts) (hline : sc.line = c.line)
  {mnem : Mnem} {args : List String} {shapes : List Cshape} {acts : List Act} {ms : List Mv} {gen pair : Nat}
include hc hopts hline

theorem planned_move (hscan : sc.scanShapes .move args = .ok (shapes, acts))
    (hmoves : c.moves .move args = .ok (ms, gen, pair)) : c.HasShapes ms (Planned false shapes) := by
  obtain ⟨f, hf, h⟩ := bind_eq_ok.mp hmoves
  obtain ⟨src, hsrc, h⟩ := bind_eq_ok.mp h
  obtain ⟨dst, hdst, h⟩ := bind_eq_ok.mp h
  cases h
  obtain ⟨f', hf', h⟩ := bind_eq_ok.mp hscan
  rw [hopts, hline, hf] at hf'
  cases hf'
  rw [hopts, hc.compact] at h
  cases hbank : classifyCtrl c.opts.cfg c.opts.variant (c.opts.moveCtrl f) with
  | none =>
    rw [hbank] at h
    cases h
  | some bank =>
    rw [hbank] at h
    obtain ⟨_, -, heq⟩ := map_eq_ok.mp h
    cases heq
    refine ⟨_, c.shapes_cons (by rw [EmitCtx.shapeOf, hbank, Option.map_some]) rfl, fun _ => ?_, nofun, nofun⟩
    simp only [Cstate.planAll, EmitCtx.shape]
    rw [plan_init bank f.count f.dyn (src == _) (dst == _) (c.opts.opIsSniff sc.line _) (c.opts.opIsPc sc.line _)]

/-- The planner makes the same of an instruction in the two passes, unless it writes the
    program counter as an absolute address from sniff. -/
theorem planned_instr (hscan : sc.scanShapes mnem args = .ok (shapes, acts))
    (hmoves : c.moves mnem args = .ok (ms, gen, pair)) (hmove : mnem ≠ .move) (hhalt : mnem ≠ .halt) :
    c.HasShapes ms (PlannedOnce (c.opts.strayPc c.line mnem args) shapes) := by
  have hcompact : sc.opts.compact = true := hopts ▸ hc.compact
  cases mnem with
  | move => exact absurd rfl hmove
  | halt => exact absurd rfl hhalt
  | add =>
    obtain rfl := scanned hscan
    obtain ⟨a, b, d, hd, heq⟩ := threeArgs hmoves
    cases heq
    simp only [hasShapes_mv hc, hasShapes_mvS hc, hasShapes_nil]
    exact PlannedOnce.read hopts hline [sh .plain, sh .sniff] [c.once .plain a c.sniffP, c.summed b]
      rfl rfl rfl rfl hd
  | sub =>
    obtain rfl := scanned hscan
    obtain ⟨a, b, d, hd, heq⟩ := threeArgs hmoves
    cases heq
    simp only [EmitCtx.subIntoSniff, List.cons_append, List.nil_append, hasShapes_mv hc, hasShapes_mvS hc,
      hasShapes_nil]
    exact PlannedOnce.read hopts hline [sh .plain, sh .plain, sh .sniff, sh .sniff]
      [c.once .plain b c.sniffP, c.once .plain _ c.xorP, c.summed _, c.summed a]
      rfl rfl rfl rfl hd
  | or | xor | andn =>
    obtain rfl := scanned hscan
    obtain ⟨a, b, d, hd, heq⟩ := threeArgs hmoves
    cases heq
    simp only [hasShapes_mv hc, hasShapes_nil]
    refine PlannedOnce.read hopts hline [sh .plain, sh .plain] [_, _] rfl ?_ ?_ rfl hd <;> rfl
  | and =>
    obtain rfl := scanned hscan
    obtain ⟨a, ha, h⟩ := bind_eq_ok.mp hmoves
    obtain ⟨b, hb, h⟩ := bind_eq_ok.mp h
    obtain ⟨d, hd, h⟩ := bind_eq_ok.mp h
    obtain ⟨atP, hat, h⟩ := bind_eq_ok.mp h
    cases h
    simp only [hasShapes_mv hc, hasShapes_nil]
    exact PlannedOnce.read hopts hline [sh .plain, sh .plain, sc.rd "at", sh .plain, sh .plain]
      [c.once .plain a c.sniffP, c.once .plain _ c.xorP, c.once .plain c.sniffP atP, c.once .plain b c.sniffP,
        c.once .plain atP c.clrP]
      rfl rfl rfl rfl hd
  | shl =>
    obtain rfl := scanned hscan
    obtain ⟨a, ha, h⟩ := bind_eq_ok.mp hmoves
    obtain ⟨d, hd, h⟩ := bind_eq_ok.mp h
    cases h
    simp only [hasShapes_mv hc, hasShapes_mvS hc, hasShapes_nil]
    exact PlannedOnce.read hopts hline [sh .plain, sh .sniff] [c.once .plain a c.sniffP, c.summed a]
      rfl rfl rfl rfl hd
  | mulc =>
    replace hscan := (needRegs_eq_ok.mp hscan).2
    obtain ⟨v, hv, h⟩ := bind_eq_ok.mp hmoves
    obtain ⟨d, hd, h⟩ := bind_eq_ok.mp h
    cases hk : parseNum (args.getD 1 "") with
    | none =>
      rw [hk] at hscan
      cases hscan
    | some k =>
      simp only [hk, hcompact, if_true] at hscan
      obtain ⟨_, -, heq⟩ := map_eq_ok.mp hscan
      cases heq
      simp only [hk, hc.compact, if_true, Option.getD_some] at h
      cases h
      obtain ⟨ss, hss, hone, hsniff, hlen⟩ := mulcMoves_shapes hc v k false 32
      have hlist := c.shapes_append (c.shapes_cons (shapeOf_mv hc c.zeroP c.sniffP) hss)
        (c.shapes_cons (shapeOf_mv hc c.sniffP d) (show c.shapes [] = some [] from rfl))
      refine ⟨_, hlist, ?_⟩
      have hstray : c.opts.strayPc c.line .mulc args =
          (!(mulcShapes k false 32).isEmpty && c.opts.absPc c.line (args.getD 2 "")) := by
        simp only [Options.strayPc, hk, mulcShapes_isEmpty_eq]
        rfl
      have hall := mulcShapes_allSniff k false 32
      rw [hstray]
      refine PlannedOnce.read hopts hline (sh .plain :: mulcShapes k false 32) (c.once .plain c.zeroP c.sniffP :: ss)
        (mulcShapes_isOnce k false 32) hone ?_ ?_ hd
      · simp only [quickAll, hsniff.quickAll_eq hall hlen]
        rfl
      · exact hall.onSniff false
  | jump =>
    simp only [ScanCtx.scanShapes] at hscan
    have hshapes : shapes = [jmp] := by
      split at hscan <;> cases hscan <;> rfl
    cases hmoves
    subst hshapes
    simp only [hasShapes_mv hc, hasShapes_nil]
    exact .of_same rfl rfl rfl rfl (List.cons_ne_nil _ _)
  | jumpr =>
    have hshapes : shapes = [⟨.plain, 1, sc.opts.opIsSniff sc.line (args.getD 0 ""), true, false, false, 0⟩] := by
      simp only [ScanCtx.scanShapes] at hscan
      split at hscan
      · exact scanned hscan
      · obtain ⟨_, -, heq⟩ := map_eq_ok.mp hscan
        exact (congrArg Prod.fst heq).symm
    obtain ⟨p, hp, h⟩ := bind_eq_ok.mp hmoves
    cases h
    subst hshapes
    simp only [hasShapes_mv hc, hasShapes_nil]
    exact .of_same rfl rfl rfl rfl (List.cons_ne_nil _ _)
  | jneg =>
    simp only [ScanCtx.scanShapes, hcompact, if_true] at hscan
    obtain rfl := scanned hscan
    obtain ⟨v, hv, h⟩ := bind_eq_ok.mp hmoves
    cases h
    simp only [hasShapes_mv hc, hasShapes_mvS hc, hasShapes_mvB hc, hasShapes_nil, once_pc, once_sniffP hc]
    exact .of_same rfl rfl rfl rfl (List.cons_ne_nil _ _)
  | jsign =>
    obtain rfl := scannedSign hscan
    obtain ⟨v, hv, h⟩ := bind_eq_ok.mp hmoves
    obtain ⟨_, -, h⟩ := bind_eq_ok.mp h
    cases h
    simp only [EmitCtx.signTail, hasShapes_mv hc, hasShapes_mvS hc, hasShapes_mvB hc, hasShapes_nil, once_pc, once_sniffP hc]
    exact .of_same rfl rfl rfl rfl (List.cons_ne_nil _ _)
  | jeq | jlt | jltu =>
    obtain rfl := scannedSign hscan
    simp only [EmitCtx.moves, hc.compact, if_true] at hmoves
    obtain ⟨a, ha, h⟩ := bind_eq_ok.mp hmoves
    obtain ⟨b, hb, h⟩ := bind_eq_ok.mp h
    obtain ⟨atP, hat, h⟩ := bind_eq_ok.mp h
    obtain ⟨at2P, hat2, h⟩ := bind_eq_ok.mp h
    obtain ⟨_, -, h⟩ := bind_eq_ok.mp h
    cases h
    simp only [EmitCtx.jeqMoves, EmitCtx.lessMoves, hc.compact, if_true, EmitCtx.subIntoSniff,
      EmitCtx.signTailC, EmitCtx.signTail, List.cons_append, List.nil_append, hasShapes_mv hc,
      hasShapes_mvS hc, hasShapes_mvB hc, hasShapes_nil, once_pc, once_symP sc hat,
      once_symP sc hat2, once_of_symP hat, once_of_symP hat2, once_bswap_symP hat, once_sniffP hc]
    exact .of_same rfl rfl rfl rfl (List.cons_ne_nil _ _)
  | jbool =>
    simp only [ScanCtx.scanShapes, hcompact, if_true] at hscan
    obtain rfl := scanned hscan
    obtain ⟨v, hv, h⟩ := bind_eq_ok.mp hmoves
    cases h
    simp only [hc.compact, if_true, List.cons_append, List.nil_append, hasShapes_mv hc, hasShapes_mvS hc,
      hasShapes_nil, once_pc, once_sniffP hc]
    exact .of_same rfl rfl rfl rfl (List.cons_ne_nil _ _)
  | call | ret =>
    replace hscan := (needRegs_eq_ok.mp hscan).2
    cases hscan
    obtain ⟨lrP, hlr, h⟩ := bind_eq_ok.mp hmoves
    cases h
    simp only [hasShapes_mv hc, hasShapes_nil]
    exact .of_same rfl rfl rfl rfl (List.cons_ne_nil _ _)
  | gpio =>
    have hshapes : shapes = [sh .plain] := by
      simp only [ScanCtx.scanShapes] at hscan
      split at hscan
      · cases hscan
      · split at hscan
        · cases hscan
        · split at hscan <;> cases hscan <;> rfl
    cases hmoves
    subst hshapes
    simp only [hasShapes_mv hc, hasShapes_nil]
    exact .of_same rfl rfl rfl rfl (List.cons_ne_nil _ _)
  | nop =>
    replace hscan := (needRegs_eq_ok.mp hscan).2
    cases hscan
    cases hmoves
    refine (hasShapes_cons (m := { c.mv c.zeroP c.nullP with count := 0 })
      (s := { c.once .plain c.zeroP c.nullP with count := 0 }) ?_ []).mpr (hasShapes_nil.mpr ?_)
    · simp [EmitCtx.shapeOf, EmitCtx.mv, EmitCtx.execCtrl, (classifyCtrl_exec hc).1, EmitCtx.shape,
      EmitCtx.once, pcP_eq hc]
    · exact .of_same rfl rfl rfl rfl (List.cons_ne_nil _ _)
  | safepoint =>
    replace hscan := (needRegs_eq_ok.mp hscan).2
    cases hscan
    obtain ⟨irqP, hirq, h⟩ := bind_eq_ok.mp hmoves
    obtain ⟨dispP, hdisp, h⟩ := bind_eq_ok.mp h
    cases h
    simp only [hasShapes_mv hc, hasShapes_nil]
    exact .of_same rfl rfl rfl rfl (List.cons_ne_nil _ _)

end

theorem ofString_eq_move {s : String} : Mnem.ofString s = some .move ↔ s = "move" := by
  constructor
  · intro h
    unfold Mnem.ofString at h
    split at h <;> first | rfl | cases h
  · rintro rfl
    rfl

/-- The one move of a `move`. -/
theorem moves_move {c : EmitCtx} {args : List String} {ms : List Mv} {gen pair : Nat}
    (h : c.moves .move args = .ok (ms, gen, pair)) :
    ∃ f src dst, c.opts.parseMoveFlags c.line (args.drop 2) = .ok f ∧
      ms = [⟨src, dst, f.count, c.opts.moveCtrl f, f.dyn⟩] := by
  obtain ⟨f, hf, h⟩ := bind_eq_ok.mp h
  obtain ⟨src, -, h⟩ := bind_eq_ok.mp h
  obtain ⟨dst, -, h⟩ := bind_eq_ok.mp h
  cases h
  exact ⟨f, src, dst, hf, rfl⟩

end DmaCpu.Dmaasm
