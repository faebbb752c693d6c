-- SUMMARY: On which bank the planner's count records run, and when a bank writes its own count.
import DmaCpu.Dmaasm.Passes

/-!
# Count records

The planner changes counts from the plain bank. So a count record writes the count of
the bank that runs it if that is the plain bank itself, and the planner has a reason
for such a record only in a `move` of the program.
-/
namespace DmaCpu.Dmaasm

open Emu List Function

/-! ## The records of an instruction -/

theorem Banks.run_prims (m : Banks) (ps : List Prim) : (m.run ps).1.map Event.prim = ps := by
  induction ps generalizing m with
  | nil => rfl
  | cons p ps ih => simp only [Banks.run, map_cons, ih]

/-- The events of an instruction. -/
def Cstate.events (st : Cstate) (m : Banks) (rs : List Request) : List Event :=
  (st.serveInstr m rs).1.flatMap Prod.snd ++ (st.serveInstr m rs).2.1

theorem serve_prims (st : Cstate) (m : Banks) (rs : List Request) :
    ((st.serve m rs).1.flatMap Prod.snd).map Event.prim = (st.planAll (rs.map Request.shape)).1 := by
  induction rs generalizing st m with
  | nil => rfl
  | cons r rs ih =>
    simp [Cstate.serve, Cstate.planAll, Banks.run_prims, ih]

theorem events_prims (m : Banks) (rs : List Request) :
    (Cstate.init.events m rs).map Event.prim = planInstr (rs.map Request.shape) := by
  simp [Cstate.events, Cstate.serveInstr, serve_prims, Banks.run_prims, serve_planAll, planInstr]

theorem events_proper (rs : List Request) : ∀ e ∈ Cstate.init.events .canonical rs, e.Proper := by
  obtain ⟨xs, es, hinstr, -, hall, hes⟩ := serveInstr_init rs
  simp only [Cstate.events, hinstr]
  refine forall_mem_append.mpr ⟨fun e he => ?_, hes⟩
  obtain ⟨x, hx, he⟩ := mem_flatMap.mp he
  exact (hall x hx).2 e he

/-! ## The count of plain -/

/-- A block that does not need another count on plain. -/
def Cshape.SparesPlain (s : Cshape) : Prop := s.bank = .plain → s.count.toNat ≤ 1 ∧ s.dyn = false

section

variable {st : Cstate} {r : Request} {ps : List Prim} {rs : List Request}

def CountsPlain (ps : List Prim) : Prop := ∃ k, .count .plain k ∈ ps

theorem not_countsPlain_switchTo (st : Cstate) (b : Bank) : ¬CountsPlain (st.switchTo b).1 := by
  rintro ⟨k, hk⟩
  unfold Cstate.switchTo at hk
  split at hk
  · cases hk
  · cases mem_singleton.mp hk

theorem countsPlain_append {ps qs : List Prim} : CountsPlain (ps ++ qs) ↔ CountsPlain ps ∨ CountsPlain qs := by
  simp [CountsPlain, exists_or]

theorem switchTo_differs (st : Cstate) (b c : Bank) (k : Word) : (st.switchTo b).2.differs c k = st.differs c k := by
  simp [Cstate.differs, (switchTo_cnt st b).1, (switchTo_cnt st b).2]

theorem times_of_sparesPlain (hr : r.shape.SparesPlain) (hbank : r.bank = .plain) : r.times = 1 := by
  obtain ⟨hcount, hdyn⟩ := hr hbank
  rw [times_eq hdyn]
  split
  · rfl
  next h =>
    have hcount' : r.count.toNat ≤ 1 := hcount
    have : r.count.toNat ≠ 0 := fun h0 => h (BitVec.eq_of_toNat_eq h0)
    exact BitVec.eq_of_toNat_eq (show r.count.toNat = 1 by omega)

section

variable (h : st.differs .plain 1 = false)
include h

/-- The plain bank keeps its count over such a block. -/
theorem plan_spares (hr : r.shape.SparesPlain) :
    ¬CountsPlain (st.plan r.shape).1 ∧ (st.plan r.shape).2.differs .plain 1 = false := by
  have hrecord : ¬CountsPlain [.record] := fun ⟨_, hk⟩ => nomatch mem_singleton.mp hk
  cases hdyn : r.dyn with
  | true =>
    have hbank : Bank.plain ≠ r.bank := fun hbank => nomatch hdyn.symm.trans (hr hbank.symm).2
    rw [plan_known (.inl hdyn), countsPlain_append, after_shape, hdyn]
    refine ⟨not_or.mpr ⟨not_countsPlain_switchTo _ _, hrecord⟩, ?_⟩
    rw [← switchTo_differs st r.bank, differs_eq_false] at h
    exact differs_eq_false.mpr ⟨h.1, (update_of_ne hbank _ _).trans h.2⟩
  | false =>
    cases hdef : st.defers r.shape r.times with
    | true =>
      rw [plan_deferred hdyn hdef]
      split
      · refine ⟨?_, (switchTo_differs ..).trans h⟩
        rintro ⟨k, hk⟩
        have hk' : .count .plain k ∈ (st.switchTo .plain).1 := by simpa using hk
        exact not_countsPlain_switchTo _ _ ⟨k, hk'⟩
      · exact ⟨hrecord, h⟩
    | false =>
      cases hdiff : st.differs r.bank r.times with
      | false =>
        rw [plan_known (.inr ⟨hdef, hdiff⟩), countsPlain_append, after_shape, hdyn]
        refine ⟨not_or.mpr ⟨not_countsPlain_switchTo _ _, hrecord⟩, ?_⟩
        rw [← switchTo_differs st r.bank] at h
        exact h
      | true =>
        have hbank : Bank.plain ≠ r.bank := fun hbank => by
          rw [← hbank, times_of_sparesPlain hr hbank.symm, h] at hdiff
          cases hdiff
        have hcount : ¬CountsPlain [.count r.bank r.times] := fun ⟨_, hk⟩ =>
          hbank (Prim.count.inj (mem_singleton.mp hk)).1
        have hset : (st.reload r.bank r.times).2.differs .plain 1 = false := by
          rw [← switchTo_differs st .plain, differs_eq_false] at h
          exact differs_eq_false.mpr ⟨(update_of_ne hbank _ _).trans h.1,
            (update_of_ne hbank _ _).trans h.2⟩
        rw [plan_reload hdyn hdef hdiff, after_shape, hdyn]
        simp only [Cstate.reload, countsPlain_append]
        refine ⟨?_, ?_⟩
        · exact not_or.mpr ⟨not_or.mpr ⟨not_countsPlain_switchTo _ _, hcount⟩,
            not_or.mpr ⟨not_countsPlain_switchTo _ _, hrecord⟩⟩
        · rw [← switchTo_differs _ r.bank] at hset
          exact hset

theorem restore_spares (bs : List Bank) : ¬CountsPlain (st.restore bs).1 := by
  induction bs generalizing st with
  | nil => exact fun ⟨_, hk⟩ => nomatch hk
  | cons b bs ih =>
    rw [Cstate.restore]
    split
    next hdiff =>
      have hbank : Bank.plain ≠ b := fun hbank => by rw [← hbank, h] at hdiff; cases hdiff
      rintro ⟨k, hk⟩
      rcases mem_cons.mp hk with heq | hk
      · exact hbank (Prim.count.inj heq).1
      · refine ih (differs_eq_false.mpr ?_) ⟨k, hk⟩
        have h := differs_eq_false.mp h
        exact ⟨(update_of_ne hbank _ _).trans h.1, (update_of_ne hbank _ _).trans h.2⟩
    next => exact ih h

theorem planSync_spares : ¬CountsPlain st.planSync.1 := by
  have hplain : (st.switchTo .plain).2.differs .plain 1 = false := (switchTo_differs ..).trans h
  unfold Cstate.planSync
  by_cases hany : (Bank.all.any fun b => st.differs b 1) = true
  · simp only [if_pos hany, countsPlain_append]
    exact not_or.mpr ⟨not_or.mpr ⟨not_countsPlain_switchTo _ _, restore_spares hplain _⟩,
      not_countsPlain_switchTo _ _⟩
  · simp only [if_neg hany, nil_append]
    exact not_countsPlain_switchTo _ _

theorem planAll_spares
    (hrs : ∀ r ∈ rs, r.shape.SparesPlain) :
    ¬CountsPlain (st.planAll (rs.map Request.shape)).1 ∧
      (st.planAll (rs.map Request.shape)).2.differs .plain 1 = false := by
  induction rs generalizing st with
  | nil => exact ⟨fun ⟨_, hk⟩ => not_mem_nil hk, h⟩
  | cons r rs ih =>
    obtain ⟨hr, hrs⟩ := forall_mem_cons.mp hrs
    obtain ⟨hprims, hdiff⟩ := plan_spares h hr
    obtain ⟨hrest, hlast⟩ := ih hdiff hrs
    simp only [map_cons, Cstate.planAll, countsPlain_append]
    exact ⟨not_or.mpr ⟨hprims, hrest⟩, hlast⟩

end

theorem planInstr_spares (hrs : ∀ r ∈ rs, r.shape.SparesPlain) :
    ¬CountsPlain (planInstr (rs.map Request.shape)) := by
  obtain ⟨hprims, hdiff⟩ := planAll_spares (show Cstate.init.differs .plain 1 = false from rfl) hrs
  simp only [planInstr, countsPlain_append]
  exact not_or.mpr ⟨hprims, planSync_spares hdiff⟩

/-- A block that does need one. -/
theorem countsPlain_planInstr (hbank : r.bank = .plain) (hr : ¬r.shape.SparesPlain) :
    CountsPlain (planInstr [r.shape]) := by
  cases hdyn : r.dyn with
  | true =>
    obtain ⟨bank, count, srcSniff, dstPc, dyn, patched, runs⟩ := r
    obtain rfl : bank = .plain := hbank
    obtain rfl : dyn = true := hdyn
    refine ⟨1, ?_⟩
    cases srcSniff <;> exact mem_cons_of_mem _ (mem_singleton.mpr rfl)
  | false =>
    have hcount : ¬r.count.toNat ≤ 1 := fun h => hr fun _ => ⟨h, hdyn⟩
    have htimes : r.times = r.count := by
      rw [times_eq hdyn, if_neg]
      intro h0
      exact hcount (by rw [h0]; decide)
    have hdef : Cstate.init.defers r.shape r.times = false := by
      simp only [Cstate.defers, Cstate.init]
      cases r.shape.srcSniff <;> rfl
    have hdiff : Cstate.init.differs r.bank r.times = true := by
      simp only [Cstate.differs, Cstate.init, htimes, Bool.or_false, bne_iff_ne]
      intro h1
      exact hcount (by rw [← h1]; decide)
    refine ⟨r.times, ?_⟩
    simp [planInstr, Cstate.planAll, plan_reload hdyn hdef hdiff, Cstate.reload, hbank]

end

/-! ## Programs -/

/-- The emulator's test for a write of a channel's own count, on a count record. -/
theorem ownCount_bank (b b' : Bank) :
    Dma.ownCount b.ch (chanRegAddr b'.ch offAl2TransCount) = decide (b = b') := by
  cases b <;> cases b' <;> decide +kernel

/-- No count record of an instruction writes the count of the bank that runs it. -/
def KeepsOwnCount (rs : List Request) : Prop :=
  ∀ e ∈ Cstate.init.events .canonical rs, ∀ b k, e.prim = .count b k →
    Dma.ownCount e.bank.ch (chanRegAddr b.ch offAl2TransCount) = false

theorem keepsOwnCount_iff (rs : List Request) :
    KeepsOwnCount rs ↔ ¬CountsPlain (planInstr (rs.map Request.shape)) := by
  rw [← events_prims .canonical]
  constructor
  · rintro h ⟨k, hk⟩
    obtain ⟨e, he, hprim⟩ := mem_map.mp hk
    have hown := h e he _ _ hprim
    rw [(events_proper rs e he).counts _ _ hprim] at hown
    exact absurd hown (by decide)
  · intro h e he b k hprim
    rw [(events_proper rs e he).counts _ _ hprim, ownCount_bank]
    refine decide_eq_false fun hb => h ⟨k, mem_map.mpr ⟨e, he, ?_⟩⟩
    rw [hprim, ← hb]

/-- The moves that pass 2 plans as one instruction, and the state of the planner then. -/
inductive Plans (o : Options) (a : Asm) (ls : List Laid) : EmitCtx → Cstate → List Mv → Prop where
  | instr {b : Builder} {pre post : List Laid} {l : Laid} {e : EmitState} {mnem : Mnem} {ms : List Mv}
      {gen pair : Nat} : ls = pre ++ l :: post → pre.foldlM (emitText o a) { bld := b } = .ok e →
      Mnem.ofString l.stmt.mnem = some mnem → (e.ctx o a l).moves mnem l.stmt.args = .ok (ms, gen, pair) →
      Plans o a ls (e.ctx o a l) e.st ms
  | slot (line gen pair : Nat) (p : Ptr) : Plans o a ls ⟨o, a, line, gen, pair⟩ .init
      [EmitCtx.mv ⟨o, a, line, gen, pair⟩ p (EmitCtx.pcP ⟨o, a, line, gen, pair⟩)]

/-- A `move` on the plain bank with a count. -/
def Options.countsOnPlain (o : Options) (s : Stmt) : Bool :=
  s.mnem == "move" && Fallible.okAnd (o.parseMoveFlags s.line (s.args.drop 2)) fun f =>
    classifyCtrl o.cfg o.variant (o.moveCtrl f) == some .plain && (decide (1 < f.count.toNat) || f.dyn)

theorem countsOnPlain_eq_true {o : Options} {s : Stmt} : o.countsOnPlain s = true ↔
    s.mnem = "move" ∧ ∃ f, o.parseMoveFlags s.line (s.args.drop 2) = .ok f ∧
      classifyCtrl o.cfg o.variant (o.moveCtrl f) = some .plain ∧ ¬(f.count.toNat ≤ 1 ∧ f.dyn = false) := by
  simp only [Options.countsOnPlain, Bool.and_eq_true, beq_iff_eq, Fallible.okAnd_eq_true, Bool.or_eq_true,
    decide_eq_true_eq, not_and_or, Nat.not_le, Bool.not_eq_false]

theorem sparesPlain_of_isTame {s : Cshape} (h : s.isTame = true) : s.SparesPlain := by
  simp only [Cshape.isTame, Cshape.isOnce, Bool.and_eq_true, Bool.or_eq_true, beq_iff_eq, Bool.not_eq_true'] at h
  refine fun _ => ⟨?_, h.1.1.1.2⟩
  rcases h.1.1.1.1 with h | h <;> rw [h] <;> decide

theorem keepsOwnCount_of_spares {rs : List Request} {ss : List Cshape} (hss : ∀ s ∈ ss, s.SparesPlain)
    (h : rs.map Request.shape = ss) : KeepsOwnCount rs :=
  (keepsOwnCount_iff rs).mpr (planInstr_spares fun _ hr => hss _ (h ▸ mem_map_of_mem hr))

section

variable {o : Options} {a₀ a : Asm} {ls : List Laid}

/-- Every block of a program spares the count of plain. -/
theorem Plans.spares (hc : o.IsCompact) (hacc : Accepted o a₀ a ls) (hls : ∀ l ∈ ls, o.countsOnPlain l.stmt = false)
    {c : EmitCtx} {st : Cstate} {ms : List Mv} (h : Plans o a ls c st ms) {ss : List Cshape}
    (hss : c.shapes ms = some ss) : st = .init ∧ ∀ s ∈ ss, s.SparesPlain := by
  cases h with
  | slot line gen pair p =>
    obtain ⟨ss', hss', htame⟩ := EmitCtx.Macro.tame (c := ⟨o, a, line, gen, pair⟩) hc (.slot p)
    cases hss.symm.trans hss'
    exact ⟨rfl, fun s hs => sparesPlain_of_isTame (all_eq_true.mp htame s hs)⟩
  | @instr b pre post l e mnem _ gen pair hsplit he hmnem hmoves =>
    subst hsplit
    have hmem : l ∈ pre ++ l :: post := mem_append_right _ (mem_cons_self ..)
    refine ⟨emitText_all_st he rfl, ?_⟩
    by_cases hmove : mnem = .move
    · subst hmove
      obtain ⟨f, src, dst, hf, rfl⟩ := moves_move hmoves
      obtain ⟨s, hs, hrest⟩ := Option.bind_eq_some_iff.mp hss
      obtain ⟨_, hnil, rfl⟩ := Option.map_eq_some_iff.mp hrest
      cases hnil
      obtain ⟨bank, hbank, rfl⟩ := Option.map_eq_some_iff.mp hs
      refine forall_mem_singleton.mpr fun hplain => by_contra fun hcount => ?_
      obtain rfl : bank = .plain := hplain
      have hcounts := countsOnPlain_eq_true.mpr ⟨ofString_eq_move.mp hmnem, f, hf, hbank, hcount⟩
      exact absurd hcounts (Bool.eq_false_iff.mp (hls l hmem))
    · obtain ⟨a₁, a₂, -, hlays, -⟩ := hacc.lays.split
      obtain ⟨shapes, acts, hscan, -⟩ := hlays.scanned (hacc.sole l hmem) hmnem
      obtain ⟨ss', hss', htame⟩ := EmitCtx.Macro.tame (c := e.ctx o a l) hc
        (.instr (by rfl) (by rfl) hmove hscan hmoves)
      cases hss.symm.trans hss'
      exact fun s hs => sparesPlain_of_isTame (all_eq_true.mp htame s hs)

/-- The moves of an instruction of a program that is emitted. -/
theorem plans_of_mem (hc : o.compact = true) {b : Builder} {e : EmitState}
    (hsole : ∀ l ∈ ls, l.stmt.Sole) (he : ls.foldlM (emitText o a) { bld := b } = .ok e) {l : Laid} (hl : l ∈ ls)
    {mnem : Mnem} (hmnem : Mnem.ofString l.stmt.mnem = some mnem) :
    ∃ e₁ ms gen pair, (EmitState.ctx e₁ o a l).moves mnem l.stmt.args = .ok (ms, gen, pair) ∧
      Plans o a ls (e₁.ctx o a l) e₁.st ms := by
  obtain ⟨pre, post, rfl⟩ := append_of_mem hl
  obtain ⟨-, -, hdir⟩ := (hsole l hl).of_mnem hmnem
  obtain ⟨e₁, hpre, hrest⟩ := Fallible.foldlM_append_eq_ok.mp he
  obtain ⟨e₂, htext, -⟩ := Fallible.foldlM_cons_eq_ok.mp hrest
  cases emits_of_emitText htext with
  | ramtext h => exact absurd (hdir.symm.trans h) (by decide)
  | words h => exact absurd (hdir.symm.trans h) (by decide)
  | nothing _ _ h => cases hmnem.symm.trans h
  | classic _ _ _ h => cases hc.symm.trans h
  | compact _ _ hmnem' _ hmoves _ =>
    cases hmnem.symm.trans hmnem'
    exact ⟨e₁, _, _, _, hmoves, .instr rfl hpre hmnem hmoves⟩

/-- A counted `move` on plain makes plain write its own count. -/
theorem not_keepsOwnCount (ho : o.IsCompact) {b : Builder} {e : EmitState} (hsole : ∀ l ∈ ls, l.stmt.Sole)
    (he : ls.foldlM (emitText o a) { bld := b } = .ok e) {l : Laid} (hl : l ∈ ls)
    (hcounts : o.countsOnPlain l.stmt = true) :
    ∃ c st ms rs, Plans o a ls c st ms ∧ c.shapes ms = some (rs.map Request.shape) ∧ ¬KeepsOwnCount rs := by
  obtain ⟨hmove, f, hf, hbank, hcount⟩ := countsOnPlain_eq_true.mp hcounts
  obtain ⟨e₁, ms, gen, pair, hmoves, hplans⟩ := plans_of_mem ho.compact hsole he hl (ofString_eq_move.mpr hmove)
  obtain ⟨f', src, dst, hf', rfl⟩ := moves_move hmoves
  cases hf.symm.trans hf'
  let s : Cshape := (e₁.ctx o a l).shape ⟨src, dst, f.count, o.moveCtrl f, f.dyn⟩ .plain
  refine ⟨_, _, _, [s.request], hplans, ?_, ?_⟩
  · exact EmitCtx.shapes_cons _ (congrArg (Option.map _) hbank) rfl
  · rw [keepsOwnCount_iff, not_not]
    exact countsPlain_planInstr rfl fun hspares => hcount (hspares rfl)

end

/-- No bank writes its own count exactly if the program has no counted `move` on plain. -/
theorem keepsOwnCount_program (src : String) (o : Options) (hc : o.compact = true) {r : AsmResult} {a : Asm}
    {ls : List Laid} (hr : assemble src o = .ok r) (hlaid : laid src o = .ok (a, ls)) :
    (∀ c st ms rs, Plans o.defaults a ls c st ms → c.shapes ms = some (rs.map Request.shape) →
      st = .init ∧ KeepsOwnCount rs) ↔ ∀ l ∈ ls, o.defaults.countsOnPlain l.stmt = false := by
  have ho := Options.isCompact_defaults hc
  obtain ⟨a₀, hacc⟩ := accepted_of_laid hlaid
  obtain ⟨a', ls', hlaid', hemit⟩ := assemble_eq_ok.mp hr
  cases hlaid.symm.trans hlaid'
  obtain ⟨b, e, he⟩ := emitText_of_emit hemit
  constructor
  · intro h l hl
    rw [Bool.eq_false_iff]
    intro hcounts
    obtain ⟨c, st, ms, rs, hplans, hshapes, hnot⟩ := not_keepsOwnCount ho hacc.sole he hl hcounts
    exact hnot (h c st ms rs hplans hshapes).2
  · intro hls c st ms rs hplans hrs
    obtain ⟨hst, hspares⟩ := hplans.spares ho hacc hls hrs
    exact ⟨hst, keepsOwnCount_of_spares hspares rfl⟩

/-- A compact program for the RP2040 around one `move`. -/
def oneMove (flags : String) : String :=
  ".text\n.entry main\nmain: move a, b" ++ flags ++ "\nhalt\n.data\n.regs\na: .word 1\nb: .word 2\n"

/-- Sixteen bytes to one register: the size8W bank counts, and plain does it. -/
theorem keepsOwnCount_bytes : ∃ r a ls, assemble (oneMove ", size8, incrw, count=16") compactRp2040 = .ok r ∧
    laid (oneMove ", size8, incrw, count=16") compactRp2040 = .ok (a, ls) ∧
    ∀ c st ms rs, Plans compactRp2040.defaults a ls c st ms → c.shapes ms = some (rs.map Request.shape) →
      st = .init ∧ KeepsOwnCount rs := by
  obtain ⟨r, a, ls, hr, hlaid, hls⟩ := exists_assembled (s := oneMove ", size8, incrw, count=16")
    (o := compactRp2040) (p := fun ls => ls.all fun l => !compactRp2040.defaults.countsOnPlain l.stmt)
    (by decide +kernel)
  refine ⟨r, a, ls, hr, hlaid, (keepsOwnCount_program _ _ rfl hr hlaid).mpr fun l hl => ?_⟩
  simpa using all_eq_true.mp hls l hl

/-- Four words from `a` to `b`: plain sets its own count. -/
theorem not_keepsOwnCount_words : ∃ r a ls, assemble (oneMove ", count=4") compactRp2040 = .ok r ∧
    laid (oneMove ", count=4") compactRp2040 = .ok (a, ls) ∧
    ∃ c st ms rs, Plans compactRp2040.defaults a ls c st ms ∧ c.shapes ms = some (rs.map Request.shape) ∧
      ¬KeepsOwnCount rs := by
  obtain ⟨r, a, ls, hr, hlaid, hls⟩ := exists_assembled (s := oneMove ", count=4") (o := compactRp2040)
    (p := fun ls => ls.any fun l => compactRp2040.defaults.countsOnPlain l.stmt) (by decide +kernel)
  obtain ⟨l, hl, hcounts⟩ := any_eq_true.mp hls
  obtain ⟨a₀, hacc⟩ := accepted_of_laid hlaid
  obtain ⟨a', ls', hlaid', hemit⟩ := assemble_eq_ok.mp hr
  cases hlaid.symm.trans hlaid'
  obtain ⟨b, e, he⟩ := emitText_of_emit hemit
  exact ⟨r, a, ls, hr, hlaid, not_keepsOwnCount (Options.isCompact_defaults rfl) hacc.sole he hl hcounts⟩

end DmaCpu.Dmaasm
