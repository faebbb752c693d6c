-- SUMMARY: The two passes statement by statement.
import DmaCpu.Dmaasm.Canonical

/-!
# The two passes, taken apart

Both passes are loops over the statements. Here they are cut at a statement: what
pass 1 had in its tables when it came to it, and where pass 2 was.
-/
namespace DmaCpu.Dmaasm

open Emu Fallible

/-! ## Statements -/

/-- A label, a directive or an instruction, but only one of them. -/
def Stmt.Sole (s : Stmt) : Prop :=
  (s.label ≠ "" → s.dir = "" ∧ s.mnem = "") ∧ (s.dir ≠ "" → s.mnem = "")

theorem parseStmt_sole (line : Nat) (text : List Char) : (parseStmt line text).Sole := by
  unfold parseStmt
  dsimp only
  split
  · exact ⟨fun h => absurd rfl h, fun _ => rfl⟩
  · exact ⟨fun h => absurd rfl h, fun h => absurd rfl h⟩

theorem parseLine_sole (line : Nat) (text : List Char) : ∀ s ∈ parseLine line text, s.Sole := by
  refine List.forall_mem_append.mpr ⟨fun s hs => ?_, fun s hs => ?_⟩
  · obtain ⟨name, -, rfl⟩ := List.mem_map.mp hs
    exact ⟨fun _ => ⟨rfl, rfl⟩, fun h => absurd rfl h⟩
  · split at hs
    · cases hs
    · rw [List.mem_singleton.mp hs]
      exact parseStmt_sole _ _

variable {ss : List Stmt}

theorem parseLines_sole {compact : Bool} {line : Nat} {conds : List Cond} {raws : List (List Char)}
    (h : parseLines compact line conds raws = .ok ss) : ∀ s ∈ ss, s.Sole := by
  induction raws generalizing line conds ss with
  | nil =>
    cases h
    exact nofun
  | cons raw raws ih =>
    simp only [parseLines] at h
    split at h
    · exact ih h
    · split at h
      · split at h
        · cases h
        · exact ih h
      · split at h
        · split at h
          · cases h
          · exact ih h
        · obtain ⟨rest, hrest, rfl⟩ := map_eq_ok.mp h
          refine List.forall_mem_append.mpr ⟨?_, ih hrest⟩
          split
          · exact parseLine_sole _ _
          · exact nofun

variable {src : String}

theorem parse_sole {compact : Bool} (h : parse compact src = .ok ss) : ∀ s ∈ ss, s.Sole :=
  parseLines_sole h

/-! ## Pass 1 -/

/-- The scan of an instruction by pass 1, with `a` as the tables are then. -/
def Asm.scanCtx (a : Asm) (o : Options) (s : Stmt) : ScanCtx := ⟨o, s.line, a.hasRegs, a.textOff, a.jpairs.length⟩

/-- What pass 1 does with a statement. -/
inductive Lays (o : Options) (a : Asm) (s : Stmt) : Asm → Laid → Prop where
  | label : s.label ≠ "" → a.syms s.label = none →
      Lays o a s (a.setSym s.label (if a.inData then ⟨false, a.dataOff⟩ else ⟨true, a.textOff⟩)) { stmt := s }
  | text : s.label = "" → s.dir = "text" → a.split = false → Lays o a s { a with inData := false } { stmt := s }
  | ramtext : s.label = "" → s.dir = "ramtext" → o.ramTextBase ≠ 0 → a.split = false →
      Lays o a s { a with split := true, splitOff := a.textOff, inData := false } { stmt := s }
  | data : s.label = "" → s.dir = "data" → Lays o a s { a with inData := true } { stmt := s }
  | entry (name : String) : s.label = "" → s.dir = "entry" → Lays o a s { a with entry := name } { stmt := s }
  | words : s.label = "" → s.dir = "word" → a.inData = true →
      Lays o a s { a with dataOff := a.dataOff + BitVec.ofNat 32 (4 * s.args.length) } { stmt := s }
  | textWords : s.label = "" → s.dir = "word" → a.inData = false →
      Lays o a s { a with textOff := a.textOff + BitVec.ofNat 32 (4 * s.args.length) } { stmt := s, inText := true }
  | space (arg : String) (n : Word) : s.label = "" → s.dir = "space" → a.inData = true → s.args = [arg] →
      parseNum arg = some n → n % 4 = 0 → Lays o a s { a with dataOff := a.dataOff + n } { stmt := s }
  | regs : s.label = "" → s.dir = "regs" → a.inData = true → a.hasRegs = false → Lays o a s a.layRegs { stmt := s }
  | write (w : WriteStmt) : s.label = "" → s.dir = "write" →
      Lays o a s { a with writes := a.writes ++ [w] } { stmt := s }
  | noSniff : s.label = "" → s.dir = "nosniffinit" → Lays o a s { a with noSniff := true } { stmt := s }
  | instr (mnem : Mnem) (shapes : List Cshape) (acts : List Act) : s.label = "" → s.dir = "" →
      Mnem.ofString s.mnem = some mnem → a.inData = false →
      (a.scanCtx o s).scanShapes mnem s.args = .ok (shapes, acts) →
      Lays o a s ((acts.foldl Asm.act a).placeInstr o s mnem shapes).1
        { stmt := s, crecs := ((acts.foldl Asm.act a).placeInstr o s mnem shapes).2 }
  | nothing : s.label = "" → s.dir = "" → s.mnem = "" → Lays o a s a { stmt := s }

section

variable {o : Options} {a a' : Asm} {s : Stmt} {l : Laid}

theorem layWrite_eq_ok (h : a.layWrite o s = .ok a') : ∃ w, a' = { a with writes := a.writes ++ [w] } := by
  unfold Asm.layWrite at h
  split at h
  · obtain ⟨op, -, h⟩ := bind_eq_ok.mp h
    split at h
    · cases h
    · split at h
      · exact ⟨_, (Except.ok.inj h).symm⟩
      · split at h
        · exact ⟨_, (Except.ok.inj h).symm⟩
        · cases h
  · cases h

theorem lays_of_layDir (hlabel : s.label = "") (h : a.layDir o s = .ok (a', l)) : Lays o a s a' l := by
  unfold Asm.layDir at h
  split at h
  case h_1 hdir =>
    split at h
    · cases h
    next hsplit =>
      cases h
      exact .text hlabel hdir (Bool.eq_false_iff.mpr hsplit)
  case h_2 hdir =>
    split at h
    · cases h
    next hbase =>
      split at h
      · cases h
      next hsplit =>
        split at h
        · cases h
        · cases h
          exact .ramtext hlabel hdir hbase (Bool.eq_false_iff.mpr hsplit)
  case h_3 hdir =>
    cases h
    exact .data hlabel hdir
  case h_4 hdir =>
    split at h
    · cases h
      exact .entry _ hlabel hdir
    · cases h
  case h_5 hdir =>
    split at h
    · cases h
    · split at h
      next hdata =>
        cases h
        exact .words hlabel hdir hdata
      next hdata =>
        cases h
        exact .textWords hlabel hdir (Bool.eq_false_iff.mpr hdata)
  case h_6 hdir =>
    split at h
    next arg hdata hargs =>
      split at h
      next n hn =>
        split at h
        · cases h
        next hmod =>
          cases h
          exact .space arg n hlabel hdir hdata hargs hn (not_not.mp hmod)
      · cases h
    · cases h
  case h_7 hdir =>
    split at h
    · cases h
    next hdata =>
      split at h
      · cases h
      next hregs =>
        cases h
        exact .regs hlabel hdir (by simpa using hdata) (Bool.eq_false_iff.mpr hregs)
  case h_8 hdir =>
    obtain ⟨a₁, hwrite, heq⟩ := map_eq_ok.mp h
    obtain ⟨w, rfl⟩ := layWrite_eq_ok hwrite
    cases heq
    exact .write w hlabel hdir
  case h_9 hdir =>
    cases h
    exact .noSniff hlabel hdir
  case h_10 => cases h

theorem lays_of_layInstr (hlabel : s.label = "") (hdir : s.dir = "") (h : a.layInstr o s = .ok (a', l)) :
    Lays o a s a' l := by
  unfold Asm.layInstr at h
  split at h
  · cases h
  next hdata =>
    split at h
    · cases h
    next mnem hmnem =>
      dsimp only at h
      split at h
      · cases h
      · obtain ⟨⟨shapes, acts⟩, hscan, heq⟩ := map_eq_ok.mp h
        cases heq
        exact .instr mnem shapes acts hlabel hdir hmnem (Bool.eq_false_iff.mpr hdata) hscan

theorem lays_of_layStmt (h : a.layStmt o s = .ok (a', l)) : Lays o a s a' l := by
  unfold Asm.layStmt at h
  split at h
  next hlabel =>
    obtain ⟨a₁, hdef, heq⟩ := map_eq_ok.mp h
    cases heq
    unfold Asm.defineLabel at hdef
    split at hdef
    · cases hdef
    next hnone =>
      cases hdef
      exact .label hlabel hnone
  next hlabel =>
    rw [not_not] at hlabel
    split at h
    · exact lays_of_layDir hlabel h
    next hdir =>
      rw [not_not] at hdir
      split at h
      · exact lays_of_layInstr hlabel hdir h
      next hmnem =>
        cases h
        exact .nothing hlabel hdir (not_not.mp hmnem)

end

theorem Lays.stmt_eq {o : Options} {a a' : Asm} {s : Stmt} {l : Laid} (h : Lays o a s a' l) : l.stmt = s := by
  cases h <;> rfl

/-- The loop of pass 1. -/
inductive LaysAll (o : Options) : Asm → List Laid → Asm → Prop where
  | nil (a : Asm) : LaysAll o a [] a
  | cons {a a₁ a' : Asm} {l : Laid} {ls : List Laid} : Lays o a l.stmt a₁ l → LaysAll o a₁ ls a' →
      LaysAll o a (l :: ls) a'

theorem laysAll_of_layStmts {o : Options} {a a' : Asm} {ls : List Laid}
    (h : a.layStmts o ss = .ok (a', ls)) : LaysAll o a ls a' ∧ ls.map Laid.stmt = ss := by
  induction ss generalizing a ls with
  | nil =>
    cases h
    exact ⟨.nil _, rfl⟩
  | cons s ss ih =>
    obtain ⟨⟨a₁, l⟩, hstmt, h⟩ := bind_eq_ok.mp h
    obtain ⟨⟨a₂, ls'⟩, hrest, heq⟩ := map_eq_ok.mp h
    cases heq
    obtain ⟨hall, hmap⟩ := ih hrest
    have hlays := lays_of_layStmt hstmt
    have hs := hlays.stmt_eq
    exact ⟨.cons (hs ▸ hlays) hall, by rw [List.map_cons, hmap, hs]⟩

/-- Pass 1 cut at a statement. -/
theorem LaysAll.split {o : Options} {a a' : Asm} {pre post : List Laid} {l : Laid}
    (h : LaysAll o a (pre ++ l :: post) a') :
    ∃ a₁ a₂, LaysAll o a pre a₁ ∧ Lays o a₁ l.stmt a₂ l ∧ LaysAll o a₂ post a' := by
  induction pre generalizing a with
  | nil =>
    cases h with
    | cons hl hpost => exact ⟨a, _, .nil a, hl, hpost⟩
  | cons l' pre ih =>
    cases h with
    | cons hl' hrest =>
      obtain ⟨a₁, a₂, hpre, hl, hpost⟩ := ih hrest
      exact ⟨a₁, a₂, .cons hl' hpre, hl, hpost⟩

/-! ## Pass 2 -/

/-- The emission of statement `l`, with pass 2 at `e`. -/
def EmitState.ctx (e : EmitState) (o : Options) (a : Asm) (l : Laid) : EmitCtx :=
  ⟨o, a, l.stmt.line, e.gen, e.pair⟩

/-- What pass 2 does with a statement of the text. -/
inductive Emits (o : Options) (a : Asm) (e : EmitState) (l : Laid) : EmitState → Prop where
  | ramtext : l.stmt.dir = "ramtext" → Emits o a e l { e with out := .rtext }
  | words {b : Builder} : l.stmt.dir = "word" → l.inText = true →
      e.bld.wordArgs o a e.out l.stmt.line l.stmt.args = .ok b → Emits o a e l { e with bld := b }
  | nothing : l.stmt.dir ≠ "ramtext" → ¬(l.stmt.dir = "word" ∧ l.inText = true) →
      Mnem.ofString l.stmt.mnem = none → Emits o a e l e
  | compact {mnem : Mnem} {ms : List Mv} {gen pair : Nat} {rs : List (Ptr × Ptr)} {st : Cstate} :
      l.stmt.dir ≠ "ramtext" → ¬(l.stmt.dir = "word" ∧ l.inText = true) →
      Mnem.ofString l.stmt.mnem = some mnem → o.compact = true →
      (e.ctx o a l).moves mnem l.stmt.args = .ok (ms, gen, pair) →
      (e.ctx o a l).instrRecords e.st l.crecs mnem ms = .ok (rs, st) →
      Emits o a e l ⟨e.bld.records o e.out rs, e.out, st, e.gen + gen, e.pair + pair⟩
  | classic {mnem : Mnem} {ms : List Mv} {gen pair : Nat} :
      l.stmt.dir ≠ "ramtext" → ¬(l.stmt.dir = "word" ∧ l.inText = true) →
      Mnem.ofString l.stmt.mnem = some mnem → o.compact = false →
      (e.ctx o a l).moves mnem l.stmt.args = .ok (ms, gen, pair) →
      Emits o a e l ⟨e.bld.blocks o e.out (if mnem = .halt then [haltMv] else ms), e.out, e.st, e.gen + gen,
        e.pair + pair⟩

section

variable {o : Options} {a : Asm} {e e' : EmitState} {l : Laid} {ls : List Laid}

theorem emits_of_emitText (h : emitText o a e l = .ok e') : Emits o a e l e' := by
  unfold emitText at h
  split at h
  next hdir =>
    cases h
    exact .ramtext hdir
  next hdir =>
    split at h
    next hword =>
      obtain ⟨b, hb, heq⟩ := map_eq_ok.mp h
      cases heq
      exact .words hword.1 hword.2 hb
    next hword =>
      split at h
      next hmnem =>
        cases h
        exact .nothing hdir hword hmnem
      next mnem hmnem =>
        obtain ⟨⟨ms, gen, pair⟩, hmoves, h⟩ := bind_eq_ok.mp h
        dsimp only at h
        split at h
        next hc =>
          obtain ⟨⟨rs, st⟩, hrs, heq⟩ := map_eq_ok.mp h
          cases heq
          exact .compact hdir hword hmnem hc hmoves hrs
        next hc =>
          cases h
          exact .classic hdir hword hmnem (Bool.eq_false_iff.mpr hc) hmoves

/-- The planner is in its canonical state between instructions. -/
theorem Emits.st_eq (h : Emits o a e l e') (hst : e.st = .init) : e'.st = .init := by
  cases h with
  | ramtext => exact hst
  | words => exact hst
  | nothing => exact hst
  | classic => exact hst
  | compact _ _ _ _ _ hrs =>
    rw [hst] at hrs
    exact (instrRecords_eq_ok hrs).1

theorem emitText_all_st (h : ls.foldlM (emitText o a) e = .ok e') (hst : e.st = .init) : e'.st = .init := by
  induction ls generalizing e with
  | nil =>
    cases h
    exact hst
  | cons l ls ih =>
    obtain ⟨e₁, hl, hrest⟩ := foldlM_cons_eq_ok.mp h
    exact ih hrest ((emits_of_emitText hl).st_eq hst)

end

/-! ## Programs -/

/-- `Assemble` up to the end of pass 1. -/
def laid (src : String) (o : Options) : Except AsmError (Asm × List Laid) :=
  (parse o.compact src).bind (Asm.layout o.defaults)

section

variable {o : Options} {mnem : Mnem}

theorem assemble_eq_ok {r : AsmResult} :
    assemble src o = .ok r ↔ ∃ a ls, laid src o = .ok (a, ls) ∧ emit o.defaults a ls = .ok r := by
  simp only [assemble, laid, bind_eq_ok, Prod.exists]
  constructor
  · rintro ⟨ss, hss, a, ls, hlay, hemit⟩
    exact ⟨a, ls, ⟨ss, hss, hlay⟩, hemit⟩
  · rintro ⟨a, ls, ⟨ss, hss, hlay⟩, hemit⟩
    exact ⟨ss, hss, a, ls, hlay, hemit⟩

/-- The compact encoding for the RP2040. -/
def compactRp2040 : Options := { variant := .rp2040, compact := true }

/-- A program that is assembled, where what pass 1 makes of it is such. -/
theorem exists_assembled {s : String} {p : List Laid → Bool}
    (h : okAnd (laid s o) (fun x => p x.2 && okAnd (emit o.defaults x.1 x.2) fun _ => true) = true) :
    ∃ r a ls, assemble s o = .ok r ∧ laid s o = .ok (a, ls) ∧ p ls = true := by
  obtain ⟨⟨a, ls⟩, hlaid, hls⟩ := okAnd_eq_true.mp h
  obtain ⟨hp, hemit⟩ := Bool.and_eq_true_iff.mp hls
  obtain ⟨r, hr, -⟩ := okAnd_eq_true.mp hemit
  exact ⟨r, a, ls, assemble_eq_ok.mpr ⟨a, ls, hlaid, hr⟩, hlaid, hp⟩

/-- A program that pass 1 accepts: `a₀` are the tables at the end of its loop. -/
structure Accepted (o : Options) (a₀ a : Asm) (ls : List Laid) : Prop where
  sole : ∀ l ∈ ls, l.stmt.Sole
  lays : LaysAll o {} ls a₀
  finish : a₀.finish o = .ok a

theorem accepted_of_layout {a : Asm} {ls : List Laid} (hss : ∀ s ∈ ss, s.Sole)
    (h : Asm.layout o ss = .ok (a, ls)) : ∃ a₀, Accepted o a₀ a ls := by
  obtain ⟨⟨a₀, ls'⟩, hlay, h⟩ := bind_eq_ok.mp h
  obtain ⟨a', hfinish, heq⟩ := map_eq_ok.mp h
  cases heq
  obtain ⟨hall, hmap⟩ := laysAll_of_layStmts hlay
  exact ⟨a₀, fun l hl => hss _ (hmap ▸ List.mem_map_of_mem hl), hall, hfinish⟩

theorem accepted_of_laid {a : Asm} {ls : List Laid} (h : laid src o = .ok (a, ls)) :
    ∃ a₀, Accepted o.defaults a₀ a ls := by
  obtain ⟨ss, hparse, hlay⟩ := bind_eq_ok.mp h
  exact accepted_of_layout (parse_sole hparse) hlay

/-- The text loop of pass 2 went through. -/
theorem emitText_of_emit {a : Asm} {ls : List Laid} {r : AsmResult} (h : emit o a ls = .ok r) :
    ∃ b e, ls.foldlM (emitText o a) { bld := b } = .ok e := by
  obtain ⟨b, himage, -⟩ := bind_eq_ok.mp h
  obtain ⟨_, -, h⟩ := bind_eq_ok.mp himage
  obtain ⟨_, -, h⟩ := bind_eq_ok.mp h
  obtain ⟨b, -, h⟩ := bind_eq_ok.mp h
  split at h
  · cases h
  · obtain ⟨e, he, -⟩ := bind_eq_ok.mp h
    exact ⟨b, e, he⟩

theorem Stmt.Sole.of_mnem {s : Stmt} (h : s.Sole) (hmnem : Mnem.ofString s.mnem = some mnem) :
    s.mnem ≠ "" ∧ s.label = "" ∧ s.dir = "" := by
  have hne : s.mnem ≠ "" := by
    intro h0
    rw [h0] at hmnem
    cases hmnem
  exact ⟨hne, by_contra fun hl => hne (h.1 hl).2, by_contra fun hd => hne (h.2 hd)⟩

/-- An instruction that pass 1 accepted. -/
theorem Lays.scanned {a a' : Asm} {s : Stmt} {l : Laid} (h : Lays o a s a' l)
    (hsole : s.Sole) (hmnem : Mnem.ofString s.mnem = some mnem) :
    ∃ shapes acts, (a.scanCtx o s).scanShapes mnem s.args = .ok (shapes, acts) ∧
      a' = ((acts.foldl Asm.act a).placeInstr o s mnem shapes).1 ∧
      l.crecs = ((acts.foldl Asm.act a).placeInstr o s mnem shapes).2 ∧ a.inData = false := by
  obtain ⟨hne, hlabel, hdir⟩ := hsole.of_mnem hmnem
  cases h with
  | label h => exact absurd hlabel h
  | nothing _ _ h => exact absurd h hne
  | instr mnem' shapes acts _ _ hmnem' hdata hscan =>
    cases hmnem.symm.trans hmnem'
    exact ⟨shapes, acts, hscan, rfl, rfl, hdata⟩
  | text _ h | ramtext _ h | data _ h | entry _ _ h | words _ h | textWords _ h
  | space _ _ _ h | regs _ h | write _ _ h | noSniff _ h =>
    exact absurd (hdir.symm.trans h) (by decide)

end

end DmaCpu.Dmaasm
