-- SUMMARY: The two passes of the assembler agree on layout, unless an instruction names the program counter by its address.
import Mathlib.Order.Nat
import DmaCpu.Dmaasm.Sizes

/-!
# The two passes

What pass 2 emits for a statement has the size that pass 1 reserved, so that labels
stand where they were recorded, fields are those of their instruction and segments
have the planned lengths. One kind of instruction is the exception: a read of the
accumulator into the program counter, given by its address.
-/
namespace DmaCpu.Dmaasm

open Emu Fallible List Option

/-! ## Pass 1 at a statement -/

/-- Pass 1 goes from `a₁` to `a₂` at the statement `l`. -/
structure PassOne (o : Options) (ls pre : List Laid) (l : Laid) (post : List Laid) (a₁ a₂ : Asm) : Prop where
  cut : ls = pre ++ l :: post
  before : ({} : Asm).layStmts o (pre.map Laid.stmt) = .ok (a₁, pre)
  here : a₁.layStmt o l.stmt = .ok (a₂, l)

variable {ss : List Stmt}

section

variable {o : Options} {a a' a₁ a₂ : Asm} {ls pre post : List Laid} {l : Laid}

theorem layStmts_cons_eq_ok : a.layStmts o ss = .ok (a', l :: ls) ↔
    ∃ s ss' a₁, ss = s :: ss' ∧ a.layStmt o s = .ok (a₁, l) ∧ a₁.layStmts o ss' = .ok (a', ls) := by
  constructor
  · intro h
    cases ss with
    | nil => cases h
    | cons s ss =>
      obtain ⟨⟨a₁, l'⟩, hstmt, h⟩ := bind_eq_ok.mp h
      obtain ⟨⟨a₂, ls'⟩, hrest, heq⟩ := map_eq_ok.mp h
      cases heq
      exact ⟨s, ss, a₁, rfl, hstmt, hrest⟩
  · rintro ⟨s, ss, a₁, rfl, hstmt, hrest⟩
    exact bind_eq_ok.mpr ⟨_, hstmt, map_eq_ok.mpr ⟨_, hrest, rfl⟩⟩

/-- Every statement of a program has its place in pass 1. -/
theorem layStmts_cut (h : a.layStmts o ss = .ok (a', pre ++ l :: post)) :
    ∃ a₁ a₂, a.layStmts o (pre.map Laid.stmt) = .ok (a₁, pre) ∧ a₁.layStmt o l.stmt = .ok (a₂, l) ∧
      a₂.layStmts o (post.map Laid.stmt) = .ok (a', post) := by
  induction pre generalizing a ss with
  | nil =>
    obtain ⟨s, ss', a₁, rfl, hstmt, hrest⟩ := layStmts_cons_eq_ok.mp h
    have hs := (lays_of_layStmt hstmt).stmt_eq
    exact ⟨a, a₁, rfl, hs.symm ▸ hstmt, (laysAll_of_layStmts hrest).2.symm ▸ hrest⟩
  | cons l' pre ih =>
    obtain ⟨s, ss', a₀, rfl, hstmt, hrest⟩ := layStmts_cons_eq_ok.mp h
    obtain ⟨a₁, a₂, hpre, hl, hpost⟩ := ih hrest
    have hs := (lays_of_layStmt hstmt).stmt_eq
    exact ⟨a₁, a₂, layStmts_cons_eq_ok.mpr ⟨_, _, a₀, rfl, hs.symm ▸ hstmt, hpre⟩, hl, hpost⟩

theorem layStmts_append {ss' : List Stmt} {ls' : List Laid} (h : a.layStmts o ss = .ok (a₁, ls))
    (h' : a₁.layStmts o ss' = .ok (a₂, ls')) : a.layStmts o (ss ++ ss') = .ok (a₂, ls ++ ls') := by
  induction ls generalizing a ss with
  | nil =>
    cases ss with
    | nil =>
      cases h
      exact h'
    | cons s ss =>
      obtain ⟨_, -, h⟩ := bind_eq_ok.mp h
      obtain ⟨_, -, heq⟩ := map_eq_ok.mp h
      cases heq
  | cons l ls ih =>
    obtain ⟨s, ss', a₀, rfl, hstmt, hrest⟩ := layStmts_cons_eq_ok.mp h
    exact layStmts_cons_eq_ok.mpr ⟨s, _, a₀, rfl, hstmt, ih hrest⟩

section

variable (h : PassOne o ls pre l post a₁ a₂)
include h

theorem PassOne.lays : LaysAll o {} pre a₁ ∧ Lays o a₁ l.stmt a₂ l :=
  ⟨(laysAll_of_layStmts h.before).1, lays_of_layStmt h.here⟩

/-- Pass 1 is a function. -/
theorem PassOne.after {a₀ : Asm}
    (hall : ({} : Asm).layStmts o ss = .ok (a₀, ls)) : a₂.layStmts o (post.map Laid.stmt) = .ok (a₀, post) := by
  obtain ⟨a₁', a₂', hpre, hl, hpost⟩ := layStmts_cut (h.cut ▸ hall)
  cases h.before.symm.trans hpre
  cases h.here.symm.trans hl
  exact hpost

/-- A later statement. -/
theorem PassOne.later {pre' post' : List Laid} {l' : Laid} {a₁' a₂' : Asm}
    (hpost : post = pre' ++ l' :: post') (hpre : a₂.layStmts o (pre'.map Laid.stmt) = .ok (a₁', pre'))
    (hl : a₁'.layStmt o l'.stmt = .ok (a₂', l')) : PassOne o ls (pre ++ l :: pre') l' post' a₁' a₂' := by
  refine ⟨by rw [h.cut, hpost, append_assoc, cons_append], ?_, hl⟩
  rw [map_append]
  exact layStmts_append h.before (layStmts_cons_eq_ok.mpr ⟨_, _, a₂, rfl, h.here, hpre⟩)

end

/-- Where a payload is stays known until another instruction is laid at the same offset. -/
theorem Lays.payloadDelta_eq {s : Stmt} {x : Word} (h : Lays o a₁ s a₂ l)
    (hx : (Mnem.ofString s.mnem).isSome = true → a₁.textOff ≠ x) : a₂.payloadDelta x = a₁.payloadDelta x := by
  cases h with
  | regs =>
    obtain ⟨_, heq⟩ := a₁.layRegs_eq
    rw [heq]
  | instr mnem shapes acts _ _ hmnem =>
    rw [(a₁.placeInstr_spec o acts s mnem shapes).2.2.2.2.2.2]
    split
    · exact Function.update_of_ne (hx (hmnem ▸ rfl)).symm _ _
    · rfl
  | _ => rfl

theorem payloadDelta_layStmts {x : Word} (h : a.layStmts o ss = .ok (a', ls))
    (hx : ∀ pre l post a₁ a₂, ls = pre ++ l :: post → a.layStmts o (pre.map Laid.stmt) = .ok (a₁, pre) →
      a₁.layStmt o l.stmt = .ok (a₂, l) → (Mnem.ofString l.stmt.mnem).isSome = true → a₁.textOff ≠ x) :
    a'.payloadDelta x = a.payloadDelta x := by
  induction ls generalizing a ss with
  | nil =>
    cases (laysAll_of_layStmts h).1
    rfl
  | cons l ls ih =>
    obtain ⟨s, ss', a₁, rfl, hstmt, hrest⟩ := layStmts_cons_eq_ok.mp h
    have hlays := lays_of_layStmt hstmt
    obtain rfl := hlays.stmt_eq
    refine (ih hrest fun pre l' post a₂ a₃ heq hpre hl => ?_).trans
      (hlays.payloadDelta_eq (hx [] l ls a a₁ rfl rfl hstmt))
    exact hx (l :: pre) l' post a₂ a₃ (congrArg (l :: ·) heq)
      (layStmts_cons_eq_ok.mpr ⟨_, _, a₁, rfl, hstmt, hpre⟩) hl

end

/-! ## An instruction in both passes -/

/-- The blocks or records that pass 2 makes of the moves of an instruction, before it looks
    at their number. -/
def EmitCtx.produced (c : EmitCtx) (mnem : Mnem) (ms : List Mv) : Option Nat :=
  if mnem = .halt then some 1
  else if c.opts.compact then
    match c.records .init ms with
    | .ok (rs, st) => some (rs.length + st.planSync.1.length)
    | .error _ => none
  else some ms.length

/-- The instruction is read by pass 1 and is `ms` for pass 2. -/
structure EmitCtx.Reads (c : EmitCtx) (sc : ScanCtx) (mnem : Mnem) (args : List String) (shapes : List Cshape)
    (ms : List Mv) : Prop where
  opts : sc.opts = c.opts
  line : sc.line = c.line
  scan : ∃ acts, sc.scanShapes mnem args = .ok (shapes, acts)
  moves : ∃ gen pair, c.moves mnem args = .ok (ms, gen, pair)

variable {rs : List (Ptr × Ptr)}

section

variable {c : EmitCtx} {sc : ScanCtx} {mnem : Mnem} {args : List String} {shapes : List Cshape} {ms : List Mv}

section

variable (h : c.Reads sc mnem args shapes ms) (hc : c.opts.IsCompact) (hhalt : mnem ≠ .halt)
include h hc hhalt

theorem EmitCtx.Reads.planned :
    c.HasShapes ms (Planned (c.opts.strayPc c.line mnem args) shapes) := by
  obtain ⟨acts, hscan⟩ := h.scan
  obtain ⟨gen, pair, hmoves⟩ := h.moves
  by_cases hmove : mnem = .move
  · subst hmove
    exact planned_move hc h.opts h.line hscan hmoves
  · obtain ⟨ss, hss, hplanned⟩ := planned_instr hc h.opts h.line hscan hmoves hmove hhalt
    exact ⟨ss, hss, hplanned.toPlanned⟩

/-- What compact pass 2 makes of an instruction, next to what pass 1 has planned. -/
theorem EmitCtx.Reads.produced :
    ∃ ss, c.shapes ms = some ss ∧ c.produced mnem ms = some (planInstr ss).length ∧
      Planned (c.opts.strayPc c.line mnem args) shapes ss := by
  obtain ⟨ss, hss, hplanned⟩ := h.planned hc hhalt
  obtain ⟨rs, hrs, hlen⟩ := c.records_shapes hss .init
  refine ⟨ss, hss, ?_, hplanned⟩
  simp [EmitCtx.produced, hhalt, hc.compact, hrs, hlen, planInstr]

end

/-- The size of an instruction in pass 2 is that of pass 1, if and only if it does not
    write the program counter by its address. -/
theorem EmitCtx.Reads.size_iff (h : c.Reads sc mnem args shapes ms) (ho : c.opts.compact = true → c.opts.IsCompact)
    {n : Nat} (hn : c.produced mnem ms = some n) :
    Asm.reserved c.opts mnem shapes = BitVec.ofNat 32 (c.opts.slotSize * n) ↔
      ¬(c.opts.compact = true ∧ c.opts.strayPc c.line mnem args = true) := by
  cases hcompact : c.opts.compact with
  | false =>
    refine iff_of_true ?_ fun h => Bool.false_ne_true h.1
    have hlen : n = mnem.blocks := by
      obtain ⟨gen, pair, hmoves⟩ := h.moves
      simp only [EmitCtx.produced, hcompact] at hn
      split at hn
      next hhalt =>
        rw [hhalt]
        exact (some.inj hn).symm
      next hhalt => exact (some.inj hn).symm.trans (moves_length hcompact hhalt _ hmoves)
    rw [Asm.reserved, Options.slotSize, hcompact, hlen, BitVec.ofNat_mul]
    rfl
  | true =>
    have hreserved : Asm.reserved c.opts mnem shapes = 8 * BitVec.ofNat 32 (planInstr shapes).length := by
      rw [Asm.reserved, hcompact]
      rfl
    rw [hreserved, Options.slotSize, hcompact, if_pos rfl, BitVec.ofNat_mul]
    by_cases hhalt : mnem = .halt
    · subst hhalt
      obtain ⟨acts, hscan⟩ := h.scan
      cases hscan
      cases hn
      exact iff_of_true rfl fun h => Bool.false_ne_true h.2
    · obtain ⟨ss, -, hss, hplanned⟩ := h.produced (ho hcompact) hhalt
      cases hn.symm.trans hss
      cases hstray : c.opts.strayPc c.line mnem args with
      | false =>
        refine iff_of_true ?_ fun h => Bool.false_ne_true h.2
        have heq : planInstr ss = planInstr shapes := by
          unfold planInstr
          rw [hplanned.same hstray]
        rw [heq]
        rfl
      | true =>
        refine iff_of_false (fun heq => ?_) fun h => h ⟨rfl, rfl⟩
        rw [hplanned.more hstray] at heq
        bv_omega

/-- The record or block of the first move of an instruction; for `halt` the empty one. -/
def payload (ms : List Mv) : Ptr × Ptr :=
  match ms with
  | [] => (.abs 0, .abs 0)
  | m :: _ => (m.src, m.dst)

/-- What pass 2 emits for an instruction. -/
def EmitCtx.pieces (c : EmitCtx) (predicted : Word) (mnem : Mnem) (ms : List Mv) :
    Except AsmError (List (Ptr × Ptr)) :=
  if c.opts.compact then (c.instrRecords .init predicted mnem ms).map Prod.fst
  else .ok ((if mnem = .halt then [haltMv] else ms).map fun m => (m.src, m.dst))

/-- From the canonical state a block begins with the records that select its bank and set
    its count. -/
theorem plan_payload {s : Cshape} (hs : s.halt = false) :
    ∃ ps, (Cstate.init.plan s).1 = ps ++ [.record] ∧ ∀ p ∈ ps, p.isPayload = false := by
  have hdefers (k : Word) : Cstate.init.defers s k = false := by
    simp only [Cstate.defers, Cstate.init]
    cases s.srcSniff <;> rfl
  have hswitch (st : Cstate) (b : Bank) : ∀ p ∈ (st.switchTo b).1, p.isPayload = false := by
    unfold Cstate.switchTo
    split
    · exact forall_mem_nil _
    · exact forall_mem_singleton.mpr rfl
  have hreload (b : Bool) (k : Word) :
      ∀ p ∈ (if b then Cstate.init.reload s.bank k else ([], .init)).1, p.isPayload = false := by
    cases b
    · exact forall_mem_nil _
    · exact forall_mem_singleton.mpr rfl
  simp only [Cstate.plan, hs, Bool.false_eq_true, if_false, hdefers]
  exact ⟨_, rfl, forall_mem_append.mpr ⟨hreload _ _, hswitch _ _⟩⟩

/-- The first record that carries a block is that of the first move. -/
theorem records_payload {m : Mv} {st : Cstate} {ss : List Cshape}
    (hrs : c.records .init (m :: ms) = .ok (rs, st)) (hss : c.shapes (m :: ms) = some ss) :
    ∃ i, rs[i]? = some (m.src, m.dst) ∧ planPayloadDelta ss = BitVec.ofNat 32 (8 * i) := by
  obtain ⟨s, hs, hss⟩ := bind_eq_some_iff.mp hss
  obtain ⟨ss', -, rfl⟩ := map_eq_some_iff.mp hss
  obtain ⟨bank, hbank, rfl⟩ := map_eq_some_iff.mp hs
  obtain ⟨ps, hps, hpay⟩ := plan_payload (show (c.shape m bank).halt = false from rfl)
  rw [c.records_cons hbank] at hrs
  obtain ⟨⟨rs', st'⟩, -, heq⟩ := map_eq_ok.mp hrs
  cases heq
  refine ⟨ps.length, ?_, ?_⟩
  · simp only [hps, map_append, append_assoc]
    rw [getElem?_append_right (Nat.le_of_eq (length_map _)), length_map, Nat.sub_self]
    rfl
  · have hfind : ((Cstate.init.planAll (c.shape m bank :: ss')).1).findIdx? Prim.isPayload = some ps.length := by
      simp only [Cstate.planAll, hps, append_assoc]
      rw [findIdx?_append, findIdx?_eq_none_iff.mpr hpay, none_or, cons_append,
        findIdx?_cons, show Prim.record.isPayload = true from rfl, if_pos rfl, map_some, Nat.zero_add]
    rw [planPayloadDelta, hfind, Nat.mul_comm, BitVec.ofNat_mul]
    rfl

/-- An instruction that pass 2 emits has its payload where pass 1 says. -/
theorem EmitCtx.Reads.payload_at (h : c.Reads sc mnem args shapes ms) (ho : c.opts.compact = true → c.opts.IsCompact)
    (hrs : c.pieces (planCount shapes) mnem ms = .ok rs) : ∃ i, rs[i]? = some (payload ms) ∧
      (if c.opts.compact then planPayloadDelta shapes else 0) = BitVec.ofNat 32 (c.opts.slotSize * i) := by
  obtain ⟨gen, pair, hmoves⟩ := h.moves
  unfold EmitCtx.pieces at hrs
  cases hcompact : c.opts.compact with
  | false =>
    rw [hcompact] at hrs
    cases hrs
    refine ⟨0, ?_, ?_⟩
    · by_cases hhalt : mnem = .halt
      · subst hhalt
        cases hmoves
        rfl
      · rw [if_neg hhalt]
        obtain _ | ⟨m, ms⟩ := ms
        · have hlen := moves_length hcompact hhalt _ hmoves
          cases mnem <;> cases hlen
        · rfl
    · rfl
  | true =>
    rw [hcompact] at hrs
    obtain ⟨⟨rs, st⟩, hrecords, rfl⟩ := map_eq_ok.mp hrs
    rw [if_pos rfl, Options.slotSize, hcompact, if_pos rfl]
    obtain ⟨-, hlen, ⟨rfl, -⟩ | ⟨hhalt, ss, hss, hn⟩⟩ := instrRecords_eq_ok hrecords
    · obtain ⟨acts, hscan⟩ := h.scan
      cases hscan
      cases hmoves
      cases hrecords
      exact ⟨0, rfl, rfl⟩
    · obtain ⟨ss', hss', -, hplanned⟩ := h.produced (ho hcompact) hhalt
      cases hss.symm.trans hss'
      -- One record more would have been noticed.
      have hstray : c.opts.strayPc c.line mnem args = false := by
        by_contra hstray
        rw [hn, hplanned.more (Bool.not_eq_false _ ▸ hstray), BitVec.ofNat_add] at hlen
        have hlen' : BitVec.ofNat 32 (planInstr shapes).length + 1 = BitVec.ofNat 32 (planInstr shapes).length := hlen
        bv_omega
      obtain _ | ⟨m, ms⟩ := ms
      · cases hss
        exact absurd rfl hplanned.nonempty
      rw [EmitCtx.instrRecords, if_neg hhalt] at hrecords
      obtain ⟨⟨rs₁, st₁⟩, hrs₁, hend⟩ := bind_eq_ok.mp hrecords
      obtain ⟨i, hi, hdelta⟩ := records_payload hrs₁ hss
      refine ⟨i, ?_, ?_⟩
      · unfold EmitCtx.endInstr at hend
        dsimp only at hend
        split at hend
        · cases hend
        · cases hend
          rw [List.getElem?_append_left (List.getElem?_eq_some_iff.mp hi).1]
          exact hi
      · rw [← hdelta, planPayloadDelta, planPayloadDelta, hplanned.same hstray]

end

/-! ## Symbols -/

/-- The name of a register of `.regs`, of a generated label or of a slot of the arena. -/
def ownName (name : String) : Prop := name ∈ abiRegs ∨ ∃ n, name = Asm.genName n ∨ name = jpairName n

def Act.isLabel : Act → Bool
  | .label _ => true
  | _ => false

def Act.isPair : Act → Bool
  | .pair _ => true
  | _ => false

/-- The symbol is the same in both tables. -/
def Asm.Keeps (name : String) (a a' : Asm) : Prop := a'.syms name = a.syms name

section

variable {name : String} {o : Options} {a a' a₁ a₂ : Asm} {s : Stmt} {l : Laid} {ls : List Laid}

theorem keeps_setSym {name' : String} (h : name ≠ name') (a : Asm) (sym : Symbol) : a.Keeps name (a.setSym name' sym) :=
  Function.update_of_ne h _ _

theorem keeps_foldl {α : Type} {f : Asm → α → Asm} {xs : List α} (hf : ∀ x ∈ xs, ∀ a : Asm, a.Keeps name (f a x))
    (a : Asm) : a.Keeps name (xs.foldl f a) :=
  foldlRecOn xs f rfl fun a' h x hx => (hf x hx a').trans h

theorem keeps_internLit (a : Asm) (op : Operand) : a.Keeps name (a.internLit op) :=
  (congrArg (fun x : Asm => x.syms name) (a.internLit_unpooled op) :)

theorem internLit_genLabel (a : Asm) (op : Operand) : (a.internLit op).genLabel = a.genLabel :=
  (congrArg Asm.genLabel (a.internLit_unpooled op) :)

theorem act_genLabel (x : Act) : (a.act x).genLabel = a.genLabel + if x.isLabel then 1 else 0 := by
  cases x with
  | intern op => exact internLit_genLabel a op
  | label off => exact internLit_genLabel _ _
  | pair p => rfl

theorem acts_genLabel (acts : List Act) :
    (acts.foldl Asm.act a).genLabel = a.genLabel + acts.countP Act.isLabel := by
  induction acts generalizing a with
  | nil => rfl
  | cons x acts ih => rw [foldl_cons, ih, act_genLabel, countP_cons, Nat.add_right_comm, Nat.add_assoc]

/-- A scan sets no symbols but the labels that it generates. -/
theorem keeps_acts {acts : List Act} (a : Asm)
    (hname : ∀ i, a.genLabel < i → i ≤ (acts.foldl Asm.act a).genLabel → name ≠ Asm.genName i) :
    a.Keeps name (acts.foldl Asm.act a) := by
  induction acts generalizing a with
  | nil => rfl
  | cons x acts ih =>
    refine (ih (a.act x) fun i hi => hname i (Nat.lt_of_le_of_lt ?_ hi)).trans ?_
    · rw [act_genLabel]
      exact Nat.le_add_right _ _
    cases x with
    | intern op => exact keeps_internLit a op
    | label off =>
      refine (keeps_internLit _ _).trans (keeps_setSym (hname _ (Nat.lt_succ_self _) ?_) _ _)
      rw [acts_genLabel, countP_cons]
      exact Nat.add_le_add_left (Nat.le_add_left 1 _) _
    | pair p => rfl

theorem keeps_layRegs (hname : name ∉ abiRegs) (a : Asm) : a.Keeps name a.layRegs := by
  refine (keeps_foldl (fun r hr a => ?_) _).trans rfl
  have hne : name ≠ r := fun h => hname (h ▸ hr)
  exact keeps_setSym hne a _

/-- A label is recorded where it stands. -/
theorem Lays.label_syms (h : Lays o a₁ s a₂ l) (hlabel : s.label ≠ "") :
    a₂.syms s.label = some (if a₁.inData then ⟨false, a₁.dataOff⟩ else ⟨true, a₁.textOff⟩) := by
  cases h with
  | label => exact Function.update_self _ _ _
  | text h | ramtext h | data h | entry _ h | words h | textWords h | space _ _ h | regs h | write _ h | noSniff h
  | instr _ _ _ h | nothing h => exact absurd h hlabel

theorem Lays.genLabel_le (h : Lays o a₁ s a₂ l) : a₁.genLabel ≤ a₂.genLabel := by
  cases h with
  | regs =>
    obtain ⟨_, heq⟩ := a₁.layRegs_eq
    rw [heq]
  | instr mnem shapes acts =>
    rw [(Asm.placeInstr_names ..).2.1, acts_genLabel]
    exact Nat.le_add_right _ _
  | _ => exact Nat.le_refl _

theorem LaysAll.genLabel_le (h : LaysAll o a₁ ls a₂) : a₁.genLabel ≤ a₂.genLabel := by
  induction h with
  | nil => exact Nat.le_refl _
  | cons hl _ ih => exact hl.genLabel_le.trans ih

/-- A symbol stays as it is, unless `.regs` or a generated label has its name. -/
theorem Lays.keeps (h : Lays o a₁ s a₂ l) (hregs : s.dir = "regs" → name ∉ abiRegs)
    (hgen : ∀ i, a₁.genLabel < i → i ≤ a₂.genLabel → name ≠ Asm.genName i) (hsome : a₁.syms name ≠ none) :
    a₁.Keeps name a₂ := by
  cases h with
  | label _ hnone =>
    have hne : name ≠ s.label := fun h => hsome (h ▸ hnone)
    exact keeps_setSym hne a₁ _
  | regs _ hdir => exact keeps_layRegs (hregs hdir) a₁
  | instr mnem shapes acts =>
    obtain ⟨hsyms, hgenLabel, -⟩ := Asm.placeInstr_names o (acts.foldl Asm.act a₁) s mnem shapes
    refine (congrFun hsyms name).trans (keeps_acts a₁ fun i hi hle => hgen i hi ?_)
    rw [hgenLabel]
    exact hle
  | _ => rfl

theorem LaysAll.keeps (h : LaysAll o a₁ ls a₂) (hregs : ∀ l ∈ ls, l.stmt.dir = "regs" → name ∉ abiRegs)
    (hgen : ∀ i, 0 < i → i ≤ a₂.genLabel → name ≠ Asm.genName i) (hsome : a₁.syms name ≠ none) :
    a₁.Keeps name a₂ := by
  induction h with
  | nil => rfl
  | cons hl hrest ih =>
    obtain ⟨hregs₁, hregs⟩ := forall_mem_cons.mp hregs
    have hkeep := hl.keeps hregs₁ (fun i hi hle => hgen i (Nat.zero_lt_of_lt hi) (hle.trans hrest.genLabel_le)) hsome
    exact (ih hregs hgen (hkeep.symm ▸ hsome)).trans hkeep

theorem keeps_finish (h : a₁.finish o = .ok a) (hname : ∀ i < a₁.jpairs.length, name ≠ jpairName i) :
    a₁.Keeps name a := by
  obtain ⟨offs, text, rfl, -⟩ := finish_pool h
  have harena : a₁.Keeps name (a₁.layArena o) :=
    keeps_foldl (fun i hi a => keeps_setSym (hname i (mem_range.mp hi)) a _) a₁
  unfold Asm.arena
  split
  · exact (keeps_internLit _ _).trans harena
  · exact harena

end

/-! ## Agreement -/

/-- The passes agree on a program that pass 1 has accepted with the tables `a`. -/
structure PassesAgree (o : Options) (a : Asm) (ls : List Laid) : Prop where
  /-- Pass 2 makes as much of an instruction as pass 1 has reserved. -/
  sizes {pre l post a₁ a₂ mnem gen pair ms gen' pair' n} : PassOne o ls pre l post a₁ a₂ →
    Mnem.ofString l.stmt.mnem = some mnem →
    (⟨o, a, l.stmt.line, gen, pair⟩ : EmitCtx).moves mnem l.stmt.args = .ok (ms, gen', pair') →
    (⟨o, a, l.stmt.line, gen, pair⟩ : EmitCtx).produced mnem ms = some n →
      a₂.textOff = a₁.textOff + BitVec.ofNat 32 (o.slotSize * n)
  /-- Every statement is emitted at the offset where pass 1 has it. -/
  text {pre l post a₁ a₂ b e} : PassOne o ls pre l post a₁ a₂ → b.len .text = 0 → b.len .rtext = 0 →
    pre.foldlM (emitText o a) { bld := b } = .ok e → e.bld.textLen = a₁.textOff
  data {pre l post a₁ a₂ b} : PassOne o ls pre l post a₁ a₂ → pre.foldlM (emitData o a) {} = .ok b →
    b.len .data = a₁.dataOff
  /-- That offset is the one recorded for a label, and it stays so if the assembler does not
      use the name itself. -/
  labels {pre l post a₁ a₂} : PassOne o ls pre l post a₁ a₂ → l.stmt.label ≠ "" →
    let sym : Symbol := if a₁.inData then ⟨false, a₁.dataOff⟩ else ⟨true, a₁.textOff⟩
    a₂.syms l.stmt.label = some sym ∧ (¬ownName l.stmt.label → a.syms l.stmt.label = some sym)
  /-- A field of an instruction is in its payload. -/
  fields {pre l post a₁ a₂ mnem gen pair ms gen' pair' rs} : PassOne o ls pre l post a₁ a₂ →
    Mnem.ofString l.stmt.mnem = some mnem →
    (∀ pre' l' post' a₁' a₂', PassOne o ls pre' l' post' a₁' a₂' → pre.length < pre'.length →
      (Mnem.ofString l'.stmt.mnem).isSome = true → a₁'.textOff ≠ a₁.textOff) →
    (⟨o, a, l.stmt.line, gen, pair⟩ : EmitCtx).moves mnem l.stmt.args = .ok (ms, gen', pair') →
    (⟨o, a, l.stmt.line, gen, pair⟩ : EmitCtx).pieces l.crecs mnem ms = .ok rs →
      ∃ i, rs[i]? = some (payload ms) ∧ ∀ line op, op.kind = .sym → op.blockField = true →
        a.syms op.sym = some ⟨true, a₁.textOff⟩ →
          let (seg, off) := a.symLoc ⟨true, a₁.textOff⟩ (op.field + BitVec.ofNat 32 (o.slotSize * i))
          a.resolve o line op = .ok (.into seg off)
  /-- The segments have the planned lengths. -/
  lengths {b} : emitImage o a ls = .ok b → a.Lengths b

/-- An instruction with operands that resolve reads the accumulator into the program
    counter, given by its address. -/
def StrayPc (o : Options) (a : Asm) (l : Laid) : Prop :=
  o.compact = true ∧ ∃ mnem gen pair r, Mnem.ofString l.stmt.mnem = some mnem ∧
    o.strayPc l.stmt.line mnem l.stmt.args = true ∧
    (⟨o, a, l.stmt.line, gen, pair⟩ : EmitCtx).moves mnem l.stmt.args = .ok r

section

variable {o : Options} {a a₀ a₁ a₂ : Asm} {ls pre post : List Laid} {l : Laid} {mnem : Mnem} {ms : List Mv}
  {gen pair gen' pair' : Nat}

theorem PassOne.mem (h : PassOne o ls pre l post a₁ a₂) : l ∈ ls :=
  h.cut ▸ mem_append_right _ mem_cons_self

section

variable (h : PassOne o ls pre l post a₁ a₂) (hsole : l.stmt.Sole)
  (hmnem : Mnem.ofString l.stmt.mnem = some mnem)
  (hmoves : (⟨o, a, l.stmt.line, gen, pair⟩ : EmitCtx).moves mnem l.stmt.args = .ok (ms, gen', pair'))
include h hsole hmnem hmoves

/-- An instruction as both passes see it. -/
theorem PassOne.reads :
    ∃ shapes, (⟨o, a, l.stmt.line, gen, pair⟩ : EmitCtx).Reads (a₁.scanCtx o l.stmt) mnem l.stmt.args shapes ms ∧
      a₂.textOff = a₁.textOff + Asm.reserved o mnem shapes ∧ (o.compact = true → l.crecs = planCount shapes ∧
        a₂.payloadDelta a₁.textOff = some (planPayloadDelta shapes)) := by
  obtain ⟨shapes, acts, hscan, rfl, hcrecs, -⟩ := h.lays.2.scanned hsole hmnem
  obtain ⟨htext, -, -, -, -, -, hdelta⟩ := a₁.placeInstr_spec o acts l.stmt mnem shapes
  refine ⟨shapes, ⟨rfl, rfl, ⟨acts, hscan⟩, ⟨_, _, hmoves⟩⟩, htext, fun hc => ⟨?_, ?_⟩⟩
  · rw [hcrecs, Asm.placeInstr_snd hc]
  · rw [hdelta, if_pos hc, Function.update_self]

variable (ho : o.compact = true → o.IsCompact)
include ho

/-- An instruction has its size in pass 2, unless it is a stray one. -/
theorem PassOne.size_iff {n : Nat}
    (hn : (⟨o, a, l.stmt.line, gen, pair⟩ : EmitCtx).produced mnem ms = some n) :
    a₂.textOff = a₁.textOff + BitVec.ofNat 32 (o.slotSize * n) ↔
      ¬(o.compact = true ∧ o.strayPc l.stmt.line mnem l.stmt.args = true) := by
  obtain ⟨shapes, hreads, htext, -⟩ := h.reads hsole hmnem hmoves
  rw [htext, ← hreads.size_iff ho hn]
  exact BitVec.add_right_inj _

section

variable (hrs : (⟨o, a, l.stmt.line, gen, pair⟩ : EmitCtx).pieces l.crecs mnem ms = .ok rs)
include hrs

/-- What pass 2 emits for an instruction has its payload where pass 1 notes it. -/
theorem PassOne.payload_at :
    ∃ i, rs[i]? = some (payload ms) ∧
      (if o.compact then (a₂.payloadDelta a₁.textOff).getD 0 else 0) = BitVec.ofNat 32 (o.slotSize * i) := by
  obtain ⟨shapes, hreads, -, hcrecs⟩ := h.reads hsole hmnem hmoves
  have hpieces : (⟨o, a, l.stmt.line, gen, pair⟩ : EmitCtx).pieces (planCount shapes) mnem ms = .ok rs := by
    cases hc : o.compact with
    | false =>
      rw [← hrs]
      simp [EmitCtx.pieces, hc]
    | true => rw [← hrs, (hcrecs hc).1]
  obtain ⟨i, hi, hoff⟩ := hreads.payload_at ho hpieces
  refine ⟨i, hi, ?_⟩
  rw [← hoff]
  cases hc : o.compact with
  | false => rfl
  | true => rw [(hcrecs hc).2]; rfl

/-- Fields are resolved into the payload. -/
theorem PassOne.field
    (hdelta : a.payloadDelta a₁.textOff = a₂.payloadDelta a₁.textOff) :
    ∃ i, rs[i]? = some (payload ms) ∧ ∀ line op, op.kind = .sym → op.blockField = true →
      a.syms op.sym = some ⟨true, a₁.textOff⟩ → let (seg, off) := a.symLoc ⟨true, a₁.textOff⟩ (op.field + BitVec.ofNat 32 (o.slotSize * i))
        a.resolve o line op = .ok (.into seg off) := by
  obtain ⟨i, hi, hoff⟩ := h.payload_at hsole hmnem hmoves ho hrs
  refine ⟨i, hi, fun line op hkind hfield hsym => ?_⟩
  unfold Asm.resolve
  simp only [hkind, hsym, hfield, Bool.not_true, Bool.false_eq_true, and_false, if_false, true_and, hdelta, hoff]

end

end

/-- Nothing but a stray instruction comes between the passes. -/
theorem passesAgree {ss : List Stmt} (hall : ({} : Asm).layStmts o ss = .ok (a₀, ls)) (hfin : a₀.finish o = .ok a)
    (hsole : ∀ l ∈ ls, l.stmt.Sole) (ho : o.compact = true → o.IsCompact) (hno : ∀ l ∈ ls, ¬StrayPc o a l) :
    PassesAgree o a ls where
  sizes h hmnem hmoves hn := (h.size_iff (hsole _ h.mem) hmnem hmoves ho hn).mpr fun ⟨hc, hstray⟩ =>
    hno _ h.mem ⟨hc, _, _, _, _, hmnem, hstray, hmoves⟩
  text h htext hrtext he :=
    ((textAt_start htext hrtext).run h.lays.1 he fun l hl =>
      hsole l (h.cut ▸ mem_append_left _ hl)).pos
  data h hb := by
    obtain ⟨n, hn, hgrow⟩ := grows_emitData_all h.lays.1 hb fun l hl =>
      hsole l (h.cut ▸ mem_append_left _ hl)
    rw [hgrow .data, hn]
    rfl
  labels := by
    intro pre l post a₁ a₂ h hlabel
    have hsym := h.lays.2.label_syms hlabel
    refine ⟨hsym, fun hname => ?_⟩
    have hkeep := (laysAll_of_layStmts (h.after hall)).1.keeps (fun _ _ _ hregs => hname (.inl hregs))
      (fun i _ _ heq => hname (.inr ⟨i, .inl heq⟩)) (hsym ▸ some_ne_none _)
    exact (keeps_finish hfin fun i _ heq => hname (.inr ⟨i, .inr heq⟩)).trans (hkeep.trans hsym)
  fields h hmnem hlast hmoves hrs := by
    have hfinish := (finish_spec hfin (laysAll_of_layStmts hall).1.litText_eq).2.2.2.2.1
    refine h.field (hsole _ h.mem) hmnem hmoves ho hrs ?_
    rw [hfinish]
    refine payloadDelta_layStmts (h.after hall) fun pre' l' post' a₁' a₂' hpost hpre hl => ?_
    refine hlast _ _ _ _ _ (h.later hpost hpre hl) ?_
    rw [length_append, length_cons]
    omega
  lengths hb := by
    obtain ⟨b₁, b₂, b₃, e₁, e₂, h⟩ := exists_emission hb
    exact h.lengths (laysAll_of_layStmts hall).1 hsole hfin

/-- What pass 2 makes of a stray instruction does not fit. -/
theorem not_passesAgree (hall : ({} : Asm).layStmts o ss = .ok (a₀, ls))
    (hsole : ∀ l ∈ ls, l.stmt.Sole) (ho : o.compact = true → o.IsCompact) (hl : l ∈ ls) (hstray : StrayPc o a l) :
    ¬PassesAgree o a ls := by
  intro hagree
  obtain ⟨hc, mnem, gen, pair, ⟨ms, gen', pair'⟩, hmnem, hpc, hmoves⟩ := hstray
  obtain ⟨pre, post, rfl⟩ := append_of_mem hl
  obtain ⟨a₁, a₂, hpre, hhere, -⟩ := layStmts_cut hall
  have h : PassOne o (pre ++ l :: post) pre l post a₁ a₂ := ⟨rfl, hpre, hhere⟩
  obtain ⟨shapes, hreads, -⟩ := h.reads (hsole l hl) hmnem hmoves
  have hhalt : mnem ≠ .halt := by
    rintro rfl
    cases hpc
  obtain ⟨ss', -, hn, -⟩ := hreads.produced (ho hc) hhalt
  exact (h.size_iff (hsole l hl) hmnem hmoves ho hn).mp (hagree.sizes h hmnem hmoves hn) ⟨hc, hpc⟩

end

theorem isCompact_of_defaults {o : Options} (h : o.defaults.compact = true) : o.defaults.IsCompact := by
  refine Options.isCompact_defaults ?_
  rw [← h, Options.defaults]
  dsimp only
  split <;> [rfl; (split <;> rfl)]

theorem exists_layStmts_of_laid {src : String} {o : Options} {a : Asm} {ls : List Laid}
    (h : laid src o = .ok (a, ls)) : ∃ ss a₀, ({} : Asm).layStmts o.defaults ss = .ok (a₀, ls) ∧
      a₀.finish o.defaults = .ok a ∧ ∀ l ∈ ls, l.stmt.Sole := by
  obtain ⟨ss, hparse, hlay⟩ := bind_eq_ok.mp h
  obtain ⟨⟨a₀, ls'⟩, hall, hrest⟩ := bind_eq_ok.mp hlay
  obtain ⟨_, hfin, heq⟩ := map_eq_ok.mp hrest
  cases heq
  exact ⟨ss, a₀, hall, hfin, fun l hl =>
    parse_sole hparse _ ((laysAll_of_layStmts hall).2 ▸ mem_map_of_mem hl)⟩

/-- The passes agree on a program that pass 1 accepts if and only if no instruction of it
    reads the accumulator into the program counter, given by its address. -/
theorem passes_agree_iff {src : String} {o : Options} {a : Asm} {ls : List Laid} (h : laid src o = .ok (a, ls)) :
    PassesAgree o.defaults a ls ↔ ∀ l ∈ ls, ¬StrayPc o.defaults a l := by
  obtain ⟨ss, a₀, hall, hfin, hsole⟩ := exists_layStmts_of_laid h
  exact ⟨fun hagree l hl hstray => not_passesAgree hall hsole isCompact_of_defaults hl hstray hagree,
    passesAgree hall hfin hsole isCompact_of_defaults⟩

/-- A program that adds two words and jumps to the sum. -/
def addPc (pc : String) : String :=
  ".data\n.regs\n.text\n.entry main\nmain: add r0, r1, " ++ pc ++ "\nhalt\n"

/-- The program counter by its name. -/
theorem passes_agree_named : ∃ a ls, laid (addPc "%pc") compactRp2040 = .ok (a, ls) ∧
    PassesAgree compactRp2040.defaults a ls := by
  have h : okAnd (laid (addPc "%pc") compactRp2040) (fun x => x.2.all fun l =>
      match Mnem.ofString l.stmt.mnem with
      | some mnem => !compactRp2040.defaults.strayPc l.stmt.line mnem l.stmt.args
      | none => true) = true := by
    decide +kernel
  obtain ⟨⟨a, ls⟩, hlaid, hls⟩ := okAnd_eq_true.mp h
  refine ⟨a, ls, hlaid, (passes_agree_iff hlaid).mpr fun l hl hstray => ?_⟩
  obtain ⟨-, mnem, -, -, -, hmnem, hpc, -⟩ := hstray
  have := all_eq_true.mp hls l hl
  simp only [hmnem, hpc, Bool.not_true, Bool.false_eq_true] at this

/-- The program counter by its address: pass 1 counts five records and pass 2 makes six. -/
theorem not_passes_agree_address :
    ∃ a ls, laid (addPc "@0x500001C0") compactRp2040 = .ok (a, ls) ∧ ¬PassesAgree compactRp2040.defaults a ls ∧
      (emit compactRp2040.defaults a ls).map (fun _ => ()) = .error (.sizingMismatch 5 5 6) := by
  have h : okAnd (laid (addPc "@0x500001C0") compactRp2040) (fun x =>
      decide ((emit compactRp2040.defaults x.1 x.2).map (fun _ => ()) = .error (.sizingMismatch 5 5 6)) &&
        x.2.any fun l => match Mnem.ofString l.stmt.mnem with
          | some mnem => compactRp2040.defaults.strayPc l.stmt.line mnem l.stmt.args &&
            okAnd ((⟨compactRp2040.defaults, x.1, l.stmt.line, 0, 0⟩ : EmitCtx).moves mnem l.stmt.args)
              fun _ => true
          | none => false) = true := by
    decide +kernel
  obtain ⟨⟨a, ls⟩, hlaid, hls⟩ := okAnd_eq_true.mp h
  obtain ⟨herr, hany⟩ := Bool.and_eq_true_iff.mp hls
  obtain ⟨l, hl, hstray⟩ := any_eq_true.mp hany
  obtain ⟨ss, a₀, hall, -, hsole⟩ := exists_layStmts_of_laid hlaid
  refine ⟨a, ls, hlaid, not_passesAgree hall hsole isCompact_of_defaults hl ?_, of_decide_eq_true herr⟩
  split at hstray
  next mnem hmnem =>
    obtain ⟨hpc, hok⟩ := Bool.and_eq_true_iff.mp hstray
    obtain ⟨r, hr, -⟩ := okAnd_eq_true.mp hok
    exact ⟨rfl, mnem, 0, 0, r, hmnem, hpc, hr⟩
  next => cases hstray

end DmaCpu.Dmaasm
