-- SUMMARY: The literal pool: every literal of the program has a word in it, at the offset that pass 1 gave it.
import DmaCpu.Dmaasm.Agreement
import DmaCpu.Dmaasm.Cells

/-!
# The literal pool

Pass 1 interns operands under their keys. The first operand with a key is the one that
the pool holds. The resident words follow the data, the cold ones the text.
-/
namespace DmaCpu.Dmaasm

open Emu Function

/-! ## Interning -/

/-- The literals that a scan interns, when `gen` labels have been generated. -/
def opsOf (gen : Nat) : List Act → List Operand
  | [] => []
  | .intern op :: acts => op :: opsOf gen acts
  | .label _ :: acts => .litSym (Asm.genName (gen + 1)) :: opsOf (gen + 1) acts
  | .pair _ :: acts => opsOf gen acts

/-- The pool holds an operand of `I` for each of them, and else only numbers. -/
structure Asm.Pool (a : Asm) (I : Operand → Prop) : Prop where
  nodup : a.litOrder.Nodup
  mem : ∀ k, k ∈ a.litOrder ↔ (a.lits k).isSome = true
  own : ∀ k op, a.lits k = some op → litKey op = k ∧ (I op ∨ op.isNum = true)
  has : ∀ op, I op → litKey op ∈ a.litOrder

section

variable {o : Options} {a a' a₁ a₂ : Asm} {I J : Operand → Prop} {s : Stmt} {l : Laid}

theorem Asm.Pool.congr (h : a.Pool I) (hlits : a'.lits = a.lits) (horder : a'.litOrder = a.litOrder) : a'.Pool I :=
  ⟨horder ▸ h.nodup, hlits ▸ horder ▸ h.mem, hlits ▸ h.own, horder ▸ h.has⟩

theorem Asm.Pool.iff (h : a.Pool I) (hIJ : ∀ op, I op ↔ J op) : a.Pool J :=
  ⟨h.nodup, h.mem, fun k op hk => ⟨(h.own k op hk).1, (h.own k op hk).2.imp_left (hIJ op).mp⟩,
    fun op hop => h.has op ((hIJ op).mpr hop)⟩

theorem internLit_of_some (a : Asm) {op op' : Operand} (h : a.lits (litKey op) = some op') :
    (a.internLit op).lits = a.lits ∧ (a.internLit op).litOrder = a.litOrder := by
  cases hs : a.split <;> simp [Asm.internLit, hs, h]

theorem internLit_of_none (a : Asm) {op : Operand} (h : a.lits (litKey op) = none) :
    (a.internLit op).lits = update a.lits (litKey op) (some op) ∧
      (a.internLit op).litOrder = a.litOrder ++ [litKey op] := by
  cases hs : a.split <;> simp [Asm.internLit, hs, h]

/-- Interning, for an operand of the program or a number. -/
theorem Asm.Pool.intern (h : a.Pool I) (op : Operand) (hJ : ∀ x, J x → I x ∨ x = op) (hI : ∀ x, I x → J x)
    (hop : J op ∨ op.isNum = true) : (a.internLit op).Pool J := by
  have hown : ∀ k x, a.lits k = some x → litKey x = k ∧ (J x ∨ x.isNum = true) := fun k x hk =>
    ⟨(h.own k x hk).1, (h.own k x hk).2.imp_left (hI x)⟩
  cases hk : a.lits (litKey op) with
  | some op' =>
    obtain ⟨hlits, horder⟩ := internLit_of_some a hk
    have hmem : litKey op ∈ a.litOrder := (h.mem _).mpr (hk ▸ rfl)
    refine ⟨horder ▸ h.nodup, hlits ▸ horder ▸ h.mem, hlits ▸ hown, fun x hx => ?_⟩
    rw [horder]
    rcases hJ x hx with hx | rfl
    · exact h.has x hx
    · exact hmem
  | none =>
    obtain ⟨hlits, horder⟩ := internLit_of_none a hk
    have hnew : litKey op ∉ a.litOrder := fun hmem => nomatch hk ▸ (h.mem _).mp hmem
    refine ⟨?_, fun k => ?_, fun k x hx => ?_, fun x hx => ?_⟩
    · rw [horder]
      exact List.nodup_append.mpr ⟨h.nodup, List.nodup_singleton _, fun k hk k' hk' heq =>
        hnew (List.mem_singleton.mp hk' ▸ heq ▸ hk)⟩
    · rw [horder, hlits, List.mem_append, List.mem_singleton]
      by_cases hkey : k = litKey op
      · subst hkey
        rw [update_self]
        exact ⟨fun _ => rfl, fun _ => .inr rfl⟩
      · rw [update_of_ne hkey, ← h.mem]
        exact ⟨fun h => h.resolve_right hkey, .inl⟩
    · rw [hlits] at hx
      by_cases hkey : k = litKey op
      · subst hkey
        rw [update_self] at hx
        cases hx
        exact ⟨rfl, hop⟩
      · rw [update_of_ne hkey] at hx
        exact hown k x hx
    · rw [horder, List.mem_append, List.mem_singleton]
      rcases hJ x hx with hx | rfl
      · exact .inl (h.has x hx)
      · exact .inr rfl

theorem Asm.Pool.sys (h : a.Pool I) (v : Word) : (a.internSys v).Pool I :=
  (h.intern (.litNum v) (fun _ => .inl) (fun _ => id) (.inr rfl)).congr rfl rfl

theorem Asm.Pool.planLits (h : a.Pool I) (shapes : List Cshape) : (a.internPlanLits shapes).Pool I := by
  unfold Asm.internPlanLits
  generalize (planInstr shapes).filterMap Prim.literal? = vs
  induction vs generalizing a with
  | nil => exact h
  | cons v vs ih => exact ih (h.sys v)

/-- The literals of a scan. -/
theorem Asm.Pool.acts (h : a.Pool I) (acts : List Act) :
    (acts.foldl Asm.act a).Pool fun x => I x ∨ x ∈ opsOf a.genLabel acts := by
  induction acts generalizing a I with
  | nil => exact h.iff fun op => ⟨.inl, fun h => h.resolve_right nofun⟩
  | cons x acts ih =>
    cases x with
    | intern op =>
      have hstep : (a.internLit op).Pool fun x => I x ∨ x = op :=
        h.intern op (fun _ => id) (fun _ => .inl) (.inl (.inr rfl))
      refine (ih hstep).iff fun y => ?_
      rw [internLit_genLabel, opsOf, List.mem_cons, or_assoc]
    | label off =>
      have hbase : ({ a with genLabel := a.genLabel + 1 }.setSym (Asm.genName (a.genLabel + 1)) ⟨true, off⟩).Pool I :=
        h.congr rfl rfl
      have hstep := hbase.intern (.litSym (Asm.genName (a.genLabel + 1)))
        (J := fun x => I x ∨ x = .litSym (Asm.genName (a.genLabel + 1))) (fun _ => id) (fun _ => .inl) (.inl (.inr rfl))
      refine (ih hstep).iff fun y => ?_
      rw [internLit_genLabel, opsOf, List.mem_cons, or_assoc]
      rfl
    | pair p => exact ih (h.congr rfl rfl)

/-- The literals that a statement interns. -/
def Asm.opsAt (a : Asm) (o : Options) (s : Stmt) : List Operand :=
  match Mnem.ofString s.mnem with
  | none => []
  | some mnem =>
    match (a.scanCtx o s).scanShapes mnem s.args with
    | .ok (_, acts) => opsOf a.genLabel acts
    | .error _ => []

theorem opsAt_of_mnem (h : Mnem.ofString s.mnem = none) (a : Asm) (o : Options) : a.opsAt o s = [] := by
  rw [Asm.opsAt, h]

/-- One statement of pass 1. -/
theorem Lays.pool (h : Lays o a₁ s a₂ l) (hsole : s.Sole) (hpool : a₁.Pool I) :
    a₂.Pool fun x => I x ∨ x ∈ a₁.opsAt o s := by
  have idle {a₂ : Asm} (hmnem : s.mnem = "") (hlits : a₂.lits = a₁.lits) (horder : a₂.litOrder = a₁.litOrder) :
      a₂.Pool fun x => I x ∨ x ∈ a₁.opsAt o s := by
    rw [opsAt_of_mnem (hmnem ▸ rfl)]
    exact (hpool.congr hlits horder).iff fun x => ⟨.inl, fun h => h.resolve_right nofun⟩
  cases h with
  | label hlabel => exact idle (hsole.1 hlabel).2 rfl rfl
  | regs _ hdir =>
    obtain ⟨_, heq⟩ := a₁.layRegs_eq
    rw [heq]
    exact idle (hsole.of_dir hdir (by decide)) rfl rfl
  | nothing _ _ hmnem => exact idle hmnem rfl rfl
  | instr mnem shapes acts _ _ hmnem _ hscan =>
    have hacts := hpool.acts acts
    have hops : a₁.opsAt o s = opsOf a₁.genLabel acts := by
      rw [Asm.opsAt, hmnem]
      simp [hscan]
    rw [hops]
    unfold Asm.placeInstr
    split
    · exact (hacts.planLits shapes).congr rfl rfl
    · exact hacts.congr rfl rfl
  | text _ hdir | ramtext _ hdir | data _ hdir | entry _ _ hdir | words _ hdir | textWords _ hdir | space _ _ _ hdir
  | write _ _ hdir | noSniff _ hdir => exact idle (hsole.of_dir hdir (by decide)) rfl rfl

variable {ls : List Laid} {ss : List Stmt}

/-- A literal of the program, or one that a macro uses. -/
def Interned (o : Options) (ls : List Laid) (op : Operand) : Prop :=
  ∃ pre l post a₁ a₂, PassOne o ls pre l post a₁ a₂ ∧ op ∈ a₁.opsAt o l.stmt

/-- The loop of pass 1. -/
theorem pool_layStmts (h : a.layStmts o ss = .ok (a', ls)) (hsole : ∀ l ∈ ls, l.stmt.Sole) (hpool : a.Pool I) :
    a'.Pool fun op => I op ∨ ∃ pre l post a₁ a₂, ls = pre ++ l :: post ∧
      a.layStmts o (pre.map Laid.stmt) = .ok (a₁, pre) ∧ a₁.layStmt o l.stmt = .ok (a₂, l) ∧ op ∈ a₁.opsAt o l.stmt := by
  induction ls generalizing a ss I with
  | nil =>
    cases (laysAll_of_layStmts h).1
    exact hpool.iff fun op => ⟨.inl, fun h => h.resolve_right fun ⟨pre, _, _, _, _, heq, _⟩ => by cases pre <;> cases heq⟩
  | cons l ls ih =>
    obtain ⟨s, ss', a₀, rfl, hstmt, hrest⟩ := layStmts_cons_eq_ok.mp h
    have hlays := lays_of_layStmt hstmt
    obtain rfl := hlays.stmt_eq
    obtain ⟨hl, hsole⟩ := List.forall_mem_cons.mp hsole
    refine (ih hrest hsole (hlays.pool hl hpool)).iff fun op => ⟨?_, ?_⟩
    · rintro ((hop | hop) | ⟨pre, l', post, a₁, a₂, rfl, hpre, hl', hop⟩)
      · exact .inl hop
      · exact .inr ⟨[], l, ls, a, a₀, rfl, rfl, hstmt, hop⟩
      · exact .inr ⟨l :: pre, l', post, a₁, a₂, rfl, layStmts_cons_eq_ok.mpr ⟨_, _, a₀, rfl, hstmt, hpre⟩, hl', hop⟩
    · rintro (hop | ⟨_ | ⟨l₀, pre⟩, l', post, a₁, a₂, heq, hpre, hl', hop⟩)
      · exact .inl (.inl hop)
      · cases heq
        cases hpre
        exact .inl (.inr hop)
      · cases heq
        obtain ⟨s, ss'', a₀', hss, hstmt', hpre'⟩ := layStmts_cons_eq_ok.mp hpre
        cases hss
        cases hstmt.symm.trans hstmt'
        exact .inr ⟨pre, l', post, a₁, a₂, rfl, hpre', hl', hop⟩

theorem pool_empty : ({} : Asm).Pool fun _ => False :=
  ⟨List.nodup_nil, fun _ => ⟨nofun, nofun⟩, nofun, nofun⟩

theorem pool_interned (h : ({} : Asm).layStmts o ss = .ok (a, ls)) (hsole : ∀ l ∈ ls, l.stmt.Sole) :
    a.Pool (Interned o ls) := by
  refine (pool_layStmts h hsole pool_empty).iff fun op => ⟨?_, ?_⟩
  · rintro (h | ⟨pre, l, post, a₁, a₂, hcut, hpre, hl, hop⟩)
    · exact h.elim
    · exact ⟨pre, l, post, a₁, a₂, ⟨hcut, hpre, hl⟩, hop⟩
  · rintro ⟨pre, l, post, a₁, a₂, h, hop⟩
    exact .inr ⟨pre, l, post, a₁, a₂, h.cut, h.before, h.here, hop⟩

end

/-! ## Offsets -/

section

variable {o : Options} {a a₀ : Asm} {I : Operand → Prop} {ks : List String}

theorem Asm.Pool.finish (h : a₀.Pool I) (hfin : a₀.finish o = .ok a) : a.Pool I := by
  have harena : (a₀.layArena o).Pool I := by
    obtain ⟨_, heq⟩ := layArena_eq o a₀
    rw [heq]
    exact h.congr rfl rfl
  have harena' : (a₀.arena o).Pool I := by
    unfold Asm.arena
    split
    · exact harena.sys _
    · exact harena
  obtain ⟨offs, text, rfl, -⟩ := finish_pool hfin
  exact harena'.congr rfl rfl

theorem layPool_of_notMem {k : String} (h : k ∉ ks) (a : Asm) (cold : Word) :
    (a.layPool o cold ks).litText k = a.litText k ∧ (a.layPool o cold ks).litOffs k = a.litOffs k := by
  induction ks generalizing a cold with
  | nil => exact ⟨rfl, rfl⟩
  | cons k' ks ih =>
    obtain ⟨hne, hks⟩ := not_or.mp (List.mem_cons.not.mp h)
    unfold Asm.layPool
    split
    · obtain ⟨htext, hoffs⟩ := ih hks { a with litText := update a.litText k' (some cold) } (cold + 4)
      exact ⟨htext.trans (update_of_ne hne _ _), hoffs⟩
    · obtain ⟨htext, hoffs⟩ := ih hks
        { a with litOffs := update a.litOffs k' (some a.dataOff), dataOff := a.dataOff + 4 } cold
      exact ⟨htext, hoffs.trans (update_of_ne hne _ _)⟩

theorem ofNat_four_mul_succ (i : Nat) : BitVec.ofNat 32 (4 * (i + 1)) = 4 + BitVec.ofNat 32 (4 * i) := by
  rw [Nat.mul_add, Nat.add_comm, BitVec.ofNat_add]
  rfl

/-- The words of each half stand one after the other. -/
theorem layPool_offsets (hks : ks.Nodup) (a : Asm) (cold : Word) (i : Nat) (k : String) :
    ((ks.filter fun k => !a.isCold o k)[i]? = some k →
      (a.layPool o cold ks).litOffs k = some (a.dataOff + BitVec.ofNat 32 (4 * i))) ∧
    ((ks.filter fun k => a.isCold o k)[i]? = some k →
      (a.layPool o cold ks).litText k = some (cold + BitVec.ofNat 32 (4 * i))) := by
  induction ks generalizing a cold i with
  | nil => exact ⟨nofun, nofun⟩
  | cons k' ks ih =>
    obtain ⟨hnew, hks⟩ := List.nodup_cons.mp hks
    unfold Asm.layPool
    split
    next hcold =>
      have ih := ih hks { a with litText := update a.litText k' (some cold) } (cold + 4)
      rw [List.filter_cons, List.filter_cons, hcold, Bool.not_true]
      refine ⟨(ih i).1, fun h => ?_⟩
      cases i with
      | zero =>
        cases h
        refine (layPool_of_notMem hnew _ _).1.trans ?_
        rw [show cold + BitVec.ofNat 32 0 = cold from BitVec.add_zero _]
        exact update_self _ _ _
      | succ i =>
        rw [ofNat_four_mul_succ, ← BitVec.add_assoc]
        exact (ih i).2 h
    next hcold =>
      have ih := ih hks
        { a with litOffs := update a.litOffs k' (some a.dataOff), dataOff := a.dataOff + 4 } cold
      rw [List.filter_cons, List.filter_cons, Bool.eq_false_iff.mpr hcold, Bool.not_false]
      refine ⟨fun h => ?_, (ih i).2⟩
      cases i with
      | zero =>
        cases h
        refine (layPool_of_notMem hnew _ _).2.trans ?_
        rw [Nat.mul_zero, show a.dataOff + BitVec.ofNat 32 0 = a.dataOff from BitVec.add_zero _]
        exact update_self _ _ _
      | succ i =>
        rw [ofNat_four_mul_succ, ← BitVec.add_assoc]
        exact (ih i).1 h

/-- Where pass 1 puts the literals. -/
theorem finish_offsets (h : a₀.Pool I) (hfin : a₀.finish o = .ok a) (hnone : a₀.litText = fun _ => none) (i : Nat)
    (k : String) :
    ((a.litOrder.filter fun k => (a.litText k).isSome == false)[i]? = some k →
      a.litText k = none ∧ a.litOffs k = some (a₀.dataOff + BitVec.ofNat 32 (4 * i))) ∧
    ((a.litOrder.filter fun k => (a.litText k).isSome == true)[i]? = some k →
      a.litText k = some ((if a.split then a.splitOff else a.textOff) + BitVec.ofNat 32 (4 * i))) := by
  obtain ⟨_, harena⟩ := arena_unpooled o a₀
  obtain ⟨offs, text, heq, -⟩ := finish_pool hfin
  have hdata : (a₀.arena o).dataOff = a₀.dataOff := (congrArg Asm.dataOff harena :)
  have horder : a.litOrder = (a₀.arena o).litOrder := (congrArg Asm.litOrder heq :)
  have hnodup := (h.finish hfin).nodup
  obtain ⟨hres, hcold⟩ := layPool_offsets (horder ▸ hnodup) (a₀.arena o)
    (if (a₀.arena o).split then (a₀.arena o).splitOff else (a₀.arena o).textOff) i k (o := o)
  rw [← finish_eq hfin, ← horder] at hres hcold
  constructor
  · intro hk
    have hnone' : a.litText k = none := by
      have := (List.mem_filter.mp (List.mem_of_getElem? hk)).2
      exact Option.isNone_iff_eq_none.mp (by simpa using this)
    refine ⟨hnone', ?_⟩
    rw [← hdata]
    refine hres ?_
    rw [← hk]
    refine congrArg (·[i]?) (List.filter_congr fun k hk => ?_)
    rw [finish_cold hfin hnone hk]
    cases (a₀.arena o).isCold o k <;> rfl
  · intro hk
    have hend : (if a.split then a.splitOff else a.textOff) =
        if (a₀.arena o).split then (a₀.arena o).splitOff else (a₀.arena o).textOff :=
      (congrArg (fun x : Asm => if x.split then x.splitOff else x.textOff) heq :)
    rw [hend]
    refine hcold ?_
    rw [← hk]
    refine congrArg (·[i]?) (List.filter_congr fun k hk => ?_)
    rw [finish_cold hfin hnone hk]
    cases (a₀.arena o).isCold o k <;> rfl

variable {ls : List Laid} {b₁ b₂ b₃ b : Builder} {e₁ e₂ : EmitState}

/-- A cell behind the `n` cells of a segment. -/
theorem getElem?_behind {α : Type} {cs new cs' : List α} {i : Nat} {c : α} (h : new[i]? = some c)
    (hbelow : cs ++ new <+: cs') : cs'[cs.length + i]? = some c := by
  obtain ⟨post, rfl⟩ := hbelow
  rw [List.append_assoc, List.getElem?_append_right (Nat.le_add_right _ _), Nat.add_sub_cancel_left,
    List.getElem?_append_left (List.getElem?_eq_some_iff.mp h).1, h]

theorem forall₂_getElem? {α β : Type} {R : α → β → Prop} {xs : List α} {ys : List β} (h : List.Forall₂ R xs ys)
    {i : Nat} {x : α} (hx : xs[i]? = some x) : ∃ y, ys[i]? = some y ∧ R x y := by
  induction h generalizing i with
  | nil => cases hx
  | cons hxy _ ih =>
    cases i with
    | zero =>
      cases hx
      exact ⟨_, rfl, hxy⟩
    | succ i => exact ih hx

/-- The image has a cell for every literal, at the place that pass 1 gave it. -/
theorem Emission.pool_cell (h : Emission o a ls b₁ b₂ b₃ e₁ e₂ b) (hlays : LaysAll o {} ls a₀)
    (hsole : ∀ l ∈ ls, l.stmt.Sole) (hfin : a₀.finish o = .ok a) (hpool : a₀.Pool I) :
    ∃ cs, b.Shows o cs ∧ ∀ k ∈ a.litOrder, ∃ seg j c, seg ≠ .rtext ∧ (cs seg)[j]? = some c ∧
      a.poolCell ((a.lits k).getD { kind := .lit }) = some c ∧
      ∀ op, litKey op = k → a.litPtr op = .into seg (BitVec.ofNat 32 (4 * j)) := by
  obtain ⟨cs₁, hcs₁, -⟩ := adds_foldlM (fun _ _ _ => adds_emitData) h.data _ (shows_empty o)
  obtain ⟨new, hcs₂, hres⟩ := hcs₁.emitPool h.pool
  obtain ⟨cs₃, hcs₃, hbelow⟩ := ((adds_emitText h.text).trans (adds_emitArena h.arena)) _
    (hcs₂.onlyWrites (onlyWrites_emitWrites h.writes))
  obtain ⟨new', hcs, hcold⟩ := hcs₃.emitPool h.cold
  refine ⟨_, hcs, fun k hk => ?_⟩
  cases hsome : (a.litText k).isSome with
  | false =>
    have hmem : k ∈ a.litOrder.filter fun k => (a.litText k).isSome == false :=
      List.mem_filter.mpr ⟨hk, beq_iff_eq.mpr hsome⟩
    obtain ⟨i, hi⟩ := List.getElem?_of_mem hmem
    obtain ⟨c, hc, hcell⟩ := forall₂_getElem? hres hi
    obtain ⟨hnone, hoffs⟩ := (finish_offsets hpool hfin hlays.litText_eq i k).1 hi
    refine ⟨.data, (cs₁ .data).length + i, c, nofun, ?_, hcell, ?_⟩
    · have hdata := hbelow .data
      exact getElem?_behind hc hdata
    · rintro op rfl
      have hlen : BitVec.ofNat 32 (4 * (cs₁ .data).length) = a₀.dataOff := by
        rw [← hcs₁.len_eq, h.len_data hlays hsole .data]
        exact BitVec.zero_add _
      rw [Asm.litPtr, hnone, hoffs, Nat.mul_add, BitVec.ofNat_add, hlen]
      rfl
  | true =>
    have hmem : k ∈ a.litOrder.filter fun k => (a.litText k).isSome == true :=
      List.mem_filter.mpr ⟨hk, beq_iff_eq.mpr hsome⟩
    obtain ⟨i, hi⟩ := List.getElem?_of_mem hmem
    obtain ⟨c, hc, hcell⟩ := forall₂_getElem? hcold hi
    have htext := (finish_offsets hpool hfin hlays.litText_eq i k).2 hi
    refine ⟨.text, (cs₃ .text).length + i, c, nofun, ?_, hcell, ?_⟩
    · exact getElem?_behind hc List.prefix_rfl
    · rintro op rfl
      have hlen : BitVec.ofNat 32 (4 * (cs₃ .text).length) = if a.split then a.splitOff else a.textOff := by
        rw [← hcs₃.len_eq, (h.textAt hlays hsole hfin).text]
      rw [Asm.litPtr, htext, Nat.mul_add, BitVec.ofNat_add, hlen]

end

end DmaCpu.Dmaasm
