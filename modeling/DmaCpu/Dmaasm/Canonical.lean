-- SUMMARY: The planner's records and the banks: where the canonical state is reached, and which bank counts.
import DmaCpu.Dmaasm.Macros

/-!
# The canonical state

An instruction begins with plain selected and all counts 1, and ends so. Inside, a
macro that writes the program counter does it in this state, and so is every label
that the assembler generates. A bank's CTRL word is that of its blocks, but for the
channel it chains to.
-/
namespace DmaCpu.Dmaasm

open Emu Fallible List

/-! ## Shapes as requests -/

/-- The request of a block, with a count of 1 if it is patched. -/
def Cshape.request (s : Cshape) : Request :=
  ⟨s.bank, s.count, s.srcSniff, s.dstPc, s.dyn, 1, fun _ _ => by decide⟩

/-- A block that goes through `block`. -/
def Cshape.isBlock (s : Cshape) : Bool := !s.halt && s.cntAfter == 0

theorem Cshape.request_shape {s : Cshape} (h : s.isBlock = true) : s.request.shape = s := by
  obtain ⟨bank, count, srcSniff, dstPc, dyn, halt, cntAfter⟩ := s
  simp only [Cshape.isBlock, Bool.and_eq_true, Bool.not_eq_true', beq_iff_eq] at h
  obtain ⟨rfl, rfl⟩ := h
  rfl

theorem isBlock_of_isOnce {s : Cshape} (h : s.isOnce = true) : s.isBlock = true ∧ s.dyn = false := by
  simp only [Cshape.isOnce, Cshape.isBlock, Bool.and_eq_true, Bool.not_eq_true'] at h ⊢
  exact ⟨⟨h.1.2, h.2⟩, h.1.1.2⟩

theorem Request.single_of_isTame {r : Request} (h : r.shape.isTame = true) : r.Single := by
  simp only [Cshape.isTame, Cshape.isOnce, shape, Bool.and_eq_true, Bool.or_eq_true, beq_iff_eq,
    Bool.not_eq_true'] at h
  obtain ⟨⟨⟨⟨hcount, hdyn⟩, -⟩, -⟩, hpc⟩ := h
  refine ⟨hdyn, ?_, fun h => hpc.resolve_right (by rw [h]; decide)⟩
  rw [times_eq hdyn]
  rcases hcount with hcount | hcount <;> rw [hcount] <;> rfl

variable {ss : List Cshape} {vals : List String} {what : String}

/-- The banks run along with the planner over blocks whose counts are not patched. -/
theorem Agrees.planAll {st : Cstate} {m : Banks} (h : Agrees st m)
    (hss : ss.all Cshape.isOnce = true) : Agrees (st.planAll ss).2 (m.run (st.planAll ss).1).2 := by
  induction ss generalizing st m with
  | nil => exact h
  | cons s ss ih =>
    rw [all_cons, Bool.and_eq_true] at hss
    obtain ⟨hs, hss⟩ := hss
    obtain ⟨hblock, hdyn⟩ := isBlock_of_isOnce hs
    obtain ⟨es, m', hrun, hagrees, -⟩ := h.plan s.request
    have hpatch : s.request.patch m = m := by simp only [Request.patch, Cshape.request, hdyn, Bool.false_eq_true, if_false]
    rw [Cshape.request_shape hblock, hpatch] at hrun
    rw [Cshape.request_shape hblock] at hagrees
    simp only [Cstate.planAll, Banks.run_append, hrun]
    exact ih hagrees hss

/-- Blocks of one transfer that end with plain selected end in the canonical state. -/
theorem run_planAll_canonical (hss : ss.all Cshape.isOnce = true)
    (hplain : (quickAll false ss).2 = false) :
    (Cstate.init.planAll ss).2 = .init ∧ (Banks.canonical.run (Cstate.init.planAll ss).1).2 = .canonical := by
  have hst : (Cstate.init.planAll ss).2 = .init := by
    rw [show Cstate.init = .single false from rfl, planAll_single hss, hplain]
  have h := agrees_init.planAll hss
  rw [hst] at h
  exact ⟨hst, (h.eq_canonical rfl fun _ => rfl).2⟩

/-! ## Generated labels -/

section

variable {sc : ScanCtx} {args : List String} {acts : List Act} {off : Word}

theorem label_notMem_internArg (s : String) : .label off ∉ sc.internArg s := by
  unfold ScanCtx.internArg
  split
  · split
    · exact mt mem_singleton.mp nofun
    · exact not_mem_nil
  · exact not_mem_nil

theorem label_notMem_scan (h : sc.scan args = .ok acts) : .label off ∉ acts := by
  induction args generalizing acts with
  | nil =>
    cases h
    exact not_mem_nil
  | cons s ss ih =>
    obtain ⟨_, -, h⟩ := bind_eq_ok.mp h
    obtain ⟨rest, hrest, rfl⟩ := map_eq_ok.mp h
    exact fun hmem => (mem_append.mp hmem).elim (label_notMem_internArg s) (ih hrest)

end

/-- A label that pass 1 puts into an instruction is where the planner is in the canonical
    state: `pre` are the blocks before it. -/
structure LabelAt (textOff : Word) (shapes : List Cshape) (off : Word) (pre : List Cshape) : Prop where
  before : pre <+: shapes
  off : off = textOff + 8 * planPrefix pre
  planner : (Cstate.init.planAll pre).2 = .init
  banks : (Banks.canonical.run (Cstate.init.planAll pre).1).2 = .canonical

theorem LabelAt.of_quick {textOff off : Word} {shapes pre : List Cshape} (hpre : pre <+: shapes)
    (hoff : off = textOff + 8 * planPrefix pre) (hss : pre.all Cshape.isOnce = true)
    (hplain : (quickAll false pre).2 = false) : LabelAt textOff shapes off pre :=
  ⟨hpre, hoff, (run_planAll_canonical hss hplain).1, (run_planAll_canonical hss hplain).2⟩

section

variable {sc : ScanCtx} {args : List String} {shapes : List Cshape} {acts : List Act} {off : Word}

/-- Scanned operands alone define no label. -/
theorem label_notMem_scanned {l : List Act}
    (hl : .label off ∉ l) (h : sc.needRegs what ((sc.scan vals).map fun acts => (ss, l ++ acts)) = .ok (shapes, acts)) :
    .label off ∉ acts := by
  obtain ⟨_, hscan, heq⟩ := map_eq_ok.mp (needRegs_eq_ok.mp h).2
  cases heq
  exact fun hmem => (mem_append.mp hmem).elim hl (label_notMem_scan hscan)

theorem label_notMem_scanSign {p : Jpair} {l : List Act}
    (hl : .label off ∉ l) (h : sc.needRegs what (sc.scanSign p vals ss l) = .ok (shapes, acts)) :
    .label off ∉ acts := by
  obtain ⟨_, hscan, heq⟩ := map_eq_ok.mp (needRegs_eq_ok.mp h).2
  cases heq
  simp [hl, label_notMem_scan hscan]

theorem labelAt_of_mem {mnem : Mnem} (hc : sc.opts.compact = true)
    (h : sc.scanShapes mnem args = .ok (shapes, acts)) (hmem : .label off ∈ acts) :
    ∃ pre, LabelAt sc.textOff shapes off pre := by
  cases mnem with
  | move =>
    obtain ⟨f, -, h⟩ := bind_eq_ok.mp h
    rw [hc, if_pos rfl] at h
    split at h
    · cases h
    · obtain ⟨_, hscan, heq⟩ := map_eq_ok.mp h
      cases heq
      simp [label_notMem_internArg, label_notMem_scan hscan] at hmem
  | add | or | xor | andn | shl =>
    exact absurd hmem (label_notMem_scanned (label_notMem_internArg _) h)
  | and => exact absurd hmem (label_notMem_scanned (l := _ :: _) (by simp [label_notMem_internArg]) h)
  | sub => exact absurd hmem (label_notMem_scanned (l := _ :: _ :: _) (by simp [label_notMem_internArg]) h)
  | mulc =>
    replace h := (needRegs_eq_ok.mp h).2
    split at h
    · cases h
    · obtain ⟨_, hscan, heq⟩ := map_eq_ok.mp h
      rw [hc] at heq
      cases heq
      simp [label_notMem_internArg, label_notMem_scan hscan] at hmem
  | jump =>
    simp only [ScanCtx.scanShapes] at h
    split at h <;> cases h <;> simp at hmem
  | jumpr =>
    simp only [ScanCtx.scanShapes] at h
    split at h
    · exact absurd hmem (label_notMem_scanned (label_notMem_internArg _) h)
    · obtain ⟨_, hscan, heq⟩ := map_eq_ok.mp h
      cases heq
      simp [label_notMem_internArg, label_notMem_scan hscan] at hmem
  | jneg =>
    simp only [ScanCtx.scanShapes, hc, if_true] at h
    obtain ⟨_, hscan, heq⟩ := map_eq_ok.mp (needRegs_eq_ok.mp h).2
    cases heq
    simp only [cons_append, mem_cons, mem_append, label_notMem_internArg, label_notMem_scan hscan,
      Act.label.injEq, reduceCtorEq, false_or, or_false] at hmem
    exact ⟨_, .of_quick (prefix_append _ _) (hmem.trans (by rw [BitVec.mul_comm])) rfl rfl⟩
  | jsign => exact absurd hmem (label_notMem_scanSign (label_notMem_internArg _) h)
  | jeq | jlt | jltu => exact absurd hmem (label_notMem_scanSign (by simp) h)
  | jbool =>
    simp only [ScanCtx.scanShapes, hc, if_true] at h
    obtain ⟨_, hscan, heq⟩ := map_eq_ok.mp (needRegs_eq_ok.mp h).2
    cases heq
    simp only [mem_cons, label_notMem_scan hscan, Act.label.injEq, reduceCtorEq, or_false] at hmem
    exact ⟨_, .of_quick (prefix_append _ _) (hmem.trans (by rw [BitVec.mul_comm])) rfl rfl⟩
  | call =>
    replace h := (needRegs_eq_ok.mp h).2
    rw [hc] at h
    cases h
    simp only [mem_cons, Act.label.injEq, reduceCtorEq, not_mem_nil, or_false] at hmem
    exact ⟨_, .of_quick prefix_rfl hmem rfl rfl⟩
  | safepoint =>
    replace h := (needRegs_eq_ok.mp h).2
    rw [hc] at h
    cases h
    simp only [mem_cons, Act.label.injEq, not_mem_nil, or_false] at hmem
    exact ⟨_, .of_quick prefix_rfl hmem rfl rfl⟩
  | ret | nop =>
    cases (needRegs_eq_ok.mp h).2
    cases hmem
  | halt =>
    cases h
    cases hmem
  | gpio =>
    simp only [ScanCtx.scanShapes] at h
    split at h
    · cases h
    · split at h
      · cases h
      · split at h <;> cases h <;> simp at hmem

end

/-! ## The control of a bank -/

/-- A word that has all of `base` and nothing beside `base`, `size` and `f`. -/
theorem split_word {x base size f : Word} (hbase : base &&& ~~~x = 0)
    (hrest : x &&& ~~~base &&& ~~~size &&& ~~~f = 0) :
    x = base ||| (x &&& size) ||| (x &&& ~~~base &&& ~~~size &&& f) := by
  refine BitVec.eq_of_getLsbD_eq fun i hi => ?_
  have hbase := congrArg (·.getLsbD i) hbase
  have hrest := congrArg (·.getLsbD i) hrest
  simp only [BitVec.getLsbD_and, BitVec.getLsbD_or, BitVec.getLsbD_not, hi, decide_true, Bool.true_and,
    show BitVec.getLsbD (0 : Word) i = false from BitVec.getLsbD_zero] at hbase hrest ⊢
  cases hx : x.getLsbD i <;> cases hb : base.getLsbD i <;> cases hs : size.getLsbD i <;> cases hf : f.getLsbD i <;>
    simp_all

theorem and_flag (x : Word) {f : Word} (hf : ∃ n, f = BitVec.twoPow 32 n) :
    x &&& f = if (x &&& f) != 0 then f else 0 := by
  obtain ⟨n, rfl⟩ := hf
  rw [BitVec.and_twoPow]
  split
  · split
    · rfl
    next h => simpa using h
  · rfl

/-- The CTRL word of a block: the base, the size and the flags. -/
def ctrlWord (base size : Word) (v : Variant) (sniff bswap incrR incrW : Bool) : Word :=
  base ||| size ||| ((if sniff then v.ctrlSniffEn else 0) ||| (if bswap then v.ctrlBswap else 0) |||
    (if incrR then ctrlIncrRead else 0) ||| (if incrW then v.ctrlIncrWrite else 0))

/-- The bits of `x` by what `classifyCtrl` tests. -/
theorem classify_flags (v : Variant) {base x : Word}
    (hrest : x &&& ~~~base &&& ~~~(ctrlSize16 ||| ctrlSize32) &&&
      ~~~(v.ctrlSniffEn ||| v.ctrlBswap ||| ctrlIncrRead ||| v.ctrlIncrWrite) = 0)
    (hbase : base &&& ~~~x = 0) :
    let e := x &&& ~~~base &&& ~~~(ctrlSize16 ||| ctrlSize32)
    x = ctrlWord base (x &&& (ctrlSize16 ||| ctrlSize32)) v (e &&& v.ctrlSniffEn != 0) (e &&& v.ctrlBswap != 0)
      (e &&& ctrlIncrRead != 0) (e &&& v.ctrlIncrWrite != 0) := by
  intro e
  have hsniff : ∃ n, v.ctrlSniffEn = BitVec.twoPow 32 n := by
    cases v
    · exact ⟨23, by decide +kernel⟩
    · exact ⟨25, by decide +kernel⟩
  have hbswap : ∃ n, v.ctrlBswap = BitVec.twoPow 32 n := by
    cases v
    · exact ⟨22, by decide +kernel⟩
    · exact ⟨24, by decide +kernel⟩
  have hincrR : ∃ n, ctrlIncrRead = BitVec.twoPow 32 n := ⟨4, by decide +kernel⟩
  have hincrW : ∃ n, v.ctrlIncrWrite = BitVec.twoPow 32 n := by
    cases v
    · exact ⟨5, by decide +kernel⟩
    · exact ⟨6, by decide +kernel⟩
  unfold ctrlWord
  rw [← and_flag e hsniff, ← and_flag e hbswap, ← and_flag e hincrR, ← and_flag e hincrW,
    ← BitVec.and_or_distrib_left, ← BitVec.and_or_distrib_left, ← BitVec.and_or_distrib_left]
  exact split_word hbase hrest

/-- A bank has the CTRL word of its blocks, but for the channel that it chains to. -/
theorem bankCtrl_of_classify {o : Options} (ho : o.IsCompact) {ctrl : Word} {b : Bank}
    (h : classifyCtrl o.cfg o.variant ctrl = some b) :
    Compact.bankCtrl o.variant b.ch = (ctrl &&& ~~~o.variant.ctrlChainTo 15) |||
      o.variant.ctrlChainTo (if b.autoReturn then Compact.cleanup else Compact.fetch) := by
  rw [classifyCtrl_compact ho] at h
  generalize o.variant = v at h ⊢
  unfold classifyCtrl at h
  dsimp only at h
  split at h
  · cases h
  next hok =>
    rw [not_or, not_not, not_not] at hok
    have hword := classify_flags v hok.1 hok.2
    rw [hword]
    generalize (ctrl &&& _ &&& _ &&& v.ctrlSniffEn != 0) = sniff at *
    generalize (ctrl &&& _ &&& _ &&& v.ctrlBswap != 0) = bswap at *
    generalize (ctrl &&& _ &&& _ &&& ctrlIncrRead != 0) = incrR at *
    generalize (ctrl &&& _ &&& _ &&& v.ctrlIncrWrite != 0) = incrW at *
    generalize ctrl &&& (ctrlSize16 ||| ctrlSize32) = size at *
    have hsize : size = ctrlSize32 ∨ size = ctrlSize8 ∨ size = ctrlSize16 := by
      by_contra hne
      simp only [not_or] at hne
      obtain ⟨h₁, h₂, h₃⟩ := hne
      simp [h₁, h₂, h₃] at h
    rcases hsize with rfl | rfl | rfl <;> cases sniff <;> cases bswap <;> cases incrR <;> cases incrW <;>
      cases h <;> cases v <;> decide +kernel

/-- Sniff moves the words that plain moves. -/
theorem swap_sniff (v : Variant) (c : Channel) (x : Word)
    (h : c.ctrl = Compact.bankCtrl v Compact.plain ∨ c.ctrl = Compact.bankCtrl v Compact.sniff) :
    ctrlDataSize c.ctrl = some .word ∧ c.swap v x .word = x := by
  have hctrl : ctrlDataSize c.ctrl = some .word ∧ c.ctrl &&& v.ctrlBswap = 0 := by
    rcases h with h | h <;> rw [h] <;> cases v <;> decide +kernel
  refine ⟨hctrl.1, if_neg ?_⟩
  simp [Channel.bswap, hctrl.2]

/-! ## Pass 2 keeps to the canonical state -/

theorem serve_planAll (st : Cstate) (m : Banks) (rs : List Request) :
    (st.serve m rs).2.1 = (st.planAll (rs.map Request.shape)).2 := by
  induction rs generalizing st m with
  | nil => rfl
  | cons r rs ih => exact ih _ _

theorem map_request_shape (h : ∀ s ∈ ss, s.isBlock = true) :
    (ss.map Cshape.request).map Request.shape = ss := by
  rw [map_map]
  exact (map_congr_left fun s hs => Cshape.request_shape (h s hs)).trans (map_id ss)

theorem planSync_planAll (h : ∀ s ∈ ss, s.isBlock = true) :
    (Cstate.init.planAll ss).2.planSync.2 = .init := by
  have hserve := serve_planAll .init .canonical (ss.map Cshape.request)
  rw [map_request_shape h] at hserve
  obtain ⟨-, -, hagrees⟩ := agrees_init.serve (ss.map Cshape.request)
  obtain ⟨-, -, hst, -⟩ := hagrees.planSync
  exact hserve ▸ hst

theorem EmitCtx.shapes_isBlock {c : EmitCtx} {ms : List Mv} (h : c.shapes ms = some ss) :
    ∀ s ∈ ss, s.isBlock = true := by
  induction ms generalizing ss with
  | nil =>
    cases h
    exact nofun
  | cons m ms ih =>
    obtain ⟨s, hs, h⟩ := Option.bind_eq_some_iff.mp h
    obtain ⟨ss', hss, rfl⟩ := Option.map_eq_some_iff.mp h
    obtain ⟨bank, -, rfl⟩ := Option.map_eq_some_iff.mp hs
    exact forall_mem_cons.mpr ⟨rfl, ih hss⟩

section

variable {c : EmitCtx} {predicted : Word} {mnem : Mnem} {ms : List Mv} {rs : List (Ptr × Ptr)} {st' : Cstate}

/-- An instruction that pass 2 emits has the size that pass 1 reserved, and leaves the
    planner in the canonical state. -/
theorem instrRecords_eq_ok (h : c.instrRecords .init predicted mnem ms = .ok (rs, st')) :
    st' = .init ∧ BitVec.ofNat 32 rs.length = predicted ∧
      (mnem = .halt ∧ rs.length = 1 ∨
        mnem ≠ .halt ∧ ∃ ss, c.shapes ms = some ss ∧ rs.length = (planInstr ss).length) := by
  unfold EmitCtx.instrRecords at h
  split at h
  next hmnem =>
    unfold EmitCtx.endInstr at h
    dsimp only at h
    split at h
    · cases h
    next hlen =>
      cases h
      exact ⟨rfl, not_not.mp hlen, .inl ⟨hmnem, rfl⟩⟩
  next hmnem =>
    obtain ⟨⟨rs', st⟩, hrs, h⟩ := bind_eq_ok.mp h
    obtain ⟨ss, hss, rfl, hlen'⟩ := c.records_eq_ok hrs
    unfold EmitCtx.endInstr at h
    dsimp only at h
    split at h
    · cases h
    next hlen =>
      cases h
      refine ⟨planSync_planAll (EmitCtx.shapes_isBlock hss), not_not.mp hlen, .inr ⟨hmnem, ss, hss, ?_⟩⟩
      simp [planInstr, hlen']

end

/-! ## The planner's invariant -/

/-- Moves that a macro makes, one that dispatches on a sign with its slots in the arena. -/
inductive EmitCtx.Macro (c : EmitCtx) : List Mv → Prop where
  | instr {sc : ScanCtx} {mnem : Mnem} {args : List String} {shapes : List Cshape} {acts : List Act}
      {ms : List Mv} {gen pair : Nat} : sc.opts = c.opts → sc.line = c.line → mnem ≠ .move →
      sc.scanShapes mnem args = .ok (shapes, acts) → c.moves mnem args = .ok (ms, gen, pair) → Macro c ms
  | slot (p : Ptr) : Macro c [c.mv p c.pcP]

theorem EmitCtx.Macro.tame {c : EmitCtx} {ms : List Mv} (hc : c.opts.IsCompact) (h : c.Macro ms) :
    ∃ ss, c.shapes ms = some ss ∧ ss.all Cshape.isTame = true := by
  cases h with
  | @instr _ mnem _ _ _ _ _ _ hopts hline hmove hscan hmoves =>
    by_cases hhalt : mnem = .halt
    · subst hhalt
      cases hmoves
      exact ⟨[], rfl, rfl⟩
    · obtain ⟨ss, hss, hplanned⟩ := planned_instr hc hopts hline hscan hmoves hmove hhalt
      exact ⟨ss, hss, hplanned.tame⟩
  | slot p => exact ⟨_, c.shapes_cons (shapeOf_mv hc p c.pcP) rfl, rfl⟩

end DmaCpu.Dmaasm
