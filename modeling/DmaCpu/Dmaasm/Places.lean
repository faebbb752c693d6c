-- SUMMARY: A text offset of pass 1 as a place in the image, in the segment of flash or in that of RAM.
import DmaCpu.Dmaasm.Names

/-!
# Places

Pass 1 has one offset for both segments of text, and `symLoc` tells them apart by
comparing it with the offset of `.ramtext`. In an image of less than 4 GiB that is the
place where pass 2 comes to a statement, unless nothing stands between it and
`.ramtext`.
-/
namespace DmaCpu.Dmaasm

open Emu Fallible Function

/-- The statement puts something into the text. -/
def Laid.emitsText (l : Laid) : Bool :=
  (Mnem.ofString l.stmt.mnem).isSome || (l.stmt.dir == "word" && l.inText)

/-- The text can be addressed. -/
def Builder.Fits (b : Builder) (split : Bool) : Prop :=
  4 * ((b.words .text).length + if split then (b.words .rtext).length else 0) < 2 ^ 32

/-! ## Words -/

section

variable {o : Options} {a a₀ a₁ a₂ : Asm} {b b' : Builder} {s : SegId} {e e' : EmitState} {l : Laid} {ls : List Laid}
variable {split : Bool}

theorem Builder.Puts.length {n : Nat} (h : b.Puts o s n b') : (b'.words s).length = (b.words s).length + n := by
  induction h with
  | refl => rfl
  | @word n b' _ v ih | @wordRef n b' _ _ v ih =>
    refine Eq.trans ?_ (congrArg (· + 1) ih)
    show (update b'.words s (b'.words s ++ [_]) s).length = (b'.words s).length + 1
    rw [update_self]
    exact List.length_append

theorem Builder.Adds.length_le {cs : Cells} (h : b.Adds o b') (hb : b.Shows o cs) (s : SegId) :
    (b.words s).length ≤ (b'.words s).length := by
  obtain ⟨cs', hcs', hbelow⟩ := h cs hb
  rw [hb.words, hcs'.words, List.length_map, List.length_map]
  exact (hbelow s).length_le

/-! ## Statements -/

variable {pre post mid ls' : List Laid} {r : Laid}

/-- A statement that puts nothing into the text. -/
theorem Emits.still (h : Emits o a e l e') (hl : l.emitsText = false) : e'.bld = e.bld := by
  obtain ⟨hmnem, hword⟩ := Bool.or_eq_false_iff.mp hl
  cases h with
  | ramtext | nothing => rfl
  | words hdir hin =>
    rw [hdir, hin] at hword
    cases hword
  | compact _ _ h | classic _ _ h =>
    rw [h] at hmnem
    cases hmnem

theorem emitText_still (h : ls.foldlM (emitText o a) e = .ok e') (hls : ∀ l ∈ ls, l.emitsText = false) :
    e'.bld = e.bld := by
  induction ls generalizing e with
  | nil =>
    cases h
    rfl
  | cons l ls ih =>
    obtain ⟨e₁, hl, hrest⟩ := foldlM_cons_eq_ok.mp h
    obtain ⟨hl', hls⟩ := List.forall_mem_cons.mp hls
    exact (ih hrest hls).trans ((emits_of_emitText hl).still hl')

theorem PassOne.word_args (h : PassOne o ls pre l post a₁ a₂) (hlabel : l.stmt.label = "") (hdir : l.stmt.dir = "word") :
    l.stmt.args ≠ [] := by
  intro hargs
  have hhere := h.here
  simp only [Asm.layStmt, Asm.layDir, hlabel, hdir, hargs, ne_eq, not_true_eq_false, if_false, if_true, reduceCtorEq,
    String.reduceEq, not_false_eq_true] at hhere

/-- A statement that puts something into the text. -/
theorem PassOne.emits_more (h : PassOne o ls pre l post a₁ a₂) (hsole : l.stmt.Sole)
    (ho : o.compact = true → o.IsCompact) (hemits : Emits o a e l e') (hst : e.st = .init) (hl : l.emitsText = true) :
    (e.bld.words e.out).length < (e'.bld.words e.out).length := by
  cases hemits with
  | ramtext hdir =>
    have hmnem := hsole.of_dir hdir (by decide)
    rw [Laid.emitsText, hmnem, hdir] at hl
    cases hl
  | nothing _ hword hmnem =>
    rw [Laid.emitsText, hmnem, Option.isSome_none, Bool.false_or, Bool.and_eq_true, beq_iff_eq] at hl
    exact absurd hl hword
  | words hdir _ hb =>
    have hlabel : l.stmt.label = "" :=
      by_contra fun hne => absurd ((hsole.1 hne).1.symm.trans hdir) (by decide)
    rw [(Builder.puts_wordArgs hb).length]
    exact Nat.lt_add_of_pos_right (List.length_pos_iff.mpr (h.word_args hlabel hdir))
  | @compact mnem ms gen pair rs st _ _ hmnem hc hmoves hrs =>
    have hpieces : (e.ctx o a l).pieces l.crecs mnem ms = .ok rs := by
      rw [EmitCtx.pieces, show (e.ctx o a l).opts.compact = true from hc, ← hst, hrs]
      rfl
    obtain ⟨i, hi, -⟩ := h.payload_at hsole hmnem hmoves ho hpieces
    have hlen := (List.getElem?_eq_some_iff.mp hi).1
    have hgrow := (e.bld.puts_records (o := o) (s := e.out) rs).length
    dsimp only
    omega
  | @classic mnem ms gen pair _ _ hmnem hc hmoves =>
    have hpieces : (e.ctx o a l).pieces l.crecs mnem ms =
        .ok ((if mnem = .halt then [haltMv] else ms).map fun m => (m.src, m.dst)) := by
      rw [EmitCtx.pieces, show (e.ctx o a l).opts.compact = false from hc, if_neg Bool.false_ne_true]
    obtain ⟨i, hi, -⟩ := h.payload_at hsole hmnem hmoves ho hpieces
    have hlen := (List.getElem?_eq_some_iff.mp hi).1
    rw [List.length_map] at hlen
    have hgrow := (e.bld.puts_blocks (o := o) (s := e.out) (if mnem = .halt then [haltMv] else ms)).length
    dsimp only
    omega

/-! ## Where the text is split -/

theorem Lays.split_kept {s : Stmt} (h : Lays o a₁ s a₂ l) (hsplit : a₁.split = true) :
    a₂.split = true ∧ a₂.splitOff = a₁.splitOff := by
  cases h with
  | ramtext _ _ _ hno => cases hsplit.symm.trans hno
  | regs =>
    obtain ⟨_, heq⟩ := a₁.layRegs_eq
    rw [heq]
    exact ⟨hsplit, rfl⟩
  | instr mnem shapes acts =>
    obtain ⟨-, -, hkeep, hoff, -⟩ := a₁.placeInstr_spec o acts s mnem shapes
    exact ⟨hkeep.trans hsplit, hoff⟩
  | _ => exact ⟨hsplit, rfl⟩

theorem LaysAll.split_kept (h : LaysAll o a₁ ls a₂) (hsplit : a₁.split = true) :
    a₂.split = true ∧ a₂.splitOff = a₁.splitOff := by
  induction h with
  | nil => exact ⟨hsplit, rfl⟩
  | cons hl _ ih =>
    obtain ⟨hsplit₁, hoff₁⟩ := hl.split_kept hsplit
    obtain ⟨hsplit₂, hoff₂⟩ := ih hsplit₁
    exact ⟨hsplit₂, hoff₂.trans hoff₁⟩

theorem Lays.split_new {s : Stmt} (h : Lays o a₁ s a₂ l) (hno : a₁.split = false) (hsplit : a₂.split = true) :
    s.dir = "ramtext" := by
  cases h with
  | ramtext _ hdir => exact hdir
  | regs =>
    obtain ⟨_, heq⟩ := a₁.layRegs_eq
    rw [heq] at hsplit
    cases hno.symm.trans hsplit
  | instr mnem shapes acts =>
    cases hno.symm.trans ((a₁.placeInstr_spec o acts s mnem shapes).2.2.1.symm.trans hsplit)
  | _ => cases hno.symm.trans hsplit

/-- The text is split by a `.ramtext`. -/
theorem LaysAll.exists_ramtext (h : LaysAll o a₁ ls a₂) (hno : a₁.split = false) (hsplit : a₂.split = true) :
    ∃ mid r post, ls = mid ++ r :: post ∧ r.stmt.dir = "ramtext" := by
  induction h with
  | nil => cases hno.symm.trans hsplit
  | @cons a a' _ l ls hl _ ih =>
    cases hsplit' : a'.split with
    | true => exact ⟨[], l, ls, rfl, hl.split_new hno hsplit'⟩
    | false =>
      obtain ⟨mid, r, post, rfl, hdir⟩ := ih hsplit' hsplit
      exact ⟨l :: mid, r, post, rfl, hdir⟩

theorem Lays.at_ramtext {s : Stmt} (h : Lays o a₁ s a₂ l) (hsole : s.Sole) (hdir : s.dir = "ramtext") :
    a₁.split = false ∧ a₂.split = true ∧ a₂.splitOff = a₁.textOff := by
  cases h with
  | ramtext _ _ _ hno => exact ⟨hno, rfl, rfl⟩
  | label h => exact absurd ((hsole.1 h).1.symm.trans hdir) (by decide)
  | text _ h | data _ h | entry _ _ h | words _ h | textWords _ h | space _ _ _ h | regs _ h | write _ _ h
  | noSniff _ h | instr _ _ _ _ h | nothing _ h => exact absurd (hdir.symm.trans h) (by decide)

/-- Where it is split. -/
theorem LaysAll.at_ramtext (h : LaysAll o a₁ (mid ++ r :: post) a₂) (hsole : r.stmt.Sole)
    (hdir : r.stmt.dir = "ramtext") :
    ∃ a', LaysAll o a₁ mid a' ∧ a'.split = false ∧ a₂.split = true ∧ a₂.splitOff = a'.textOff := by
  obtain ⟨a', a'', hmid, hr, hpost⟩ := h.split
  obtain ⟨hno, hsplit, hoff⟩ := hr.at_ramtext hsole hdir
  obtain ⟨hsplit₂, hoff₂⟩ := hpost.split_kept hsplit
  exact ⟨a', hmid, hno, hsplit₂, hoff₂.trans hoff⟩

/-! ## Places of statements -/

theorem Builder.Fits.text (h : b.Fits split) : (b.len .text).toNat = 4 * (b.words .text).length := by
  unfold Builder.Fits at h
  rw [Builder.len, BitVec.toNat_ofNat]
  omega

theorem Builder.Fits.textLen (h : b.Fits true) :
    b.textLen.toNat = 4 * ((b.words .text).length + (b.words .rtext).length) := by
  unfold Builder.Fits at h
  rw [if_pos rfl] at h
  rw [Builder.textLen, Builder.len, Builder.len, BitVec.toNat_add, BitVec.toNat_ofNat, BitVec.toNat_ofNat]
  omega

variable {b₁ b₂ b₃ : Builder} {e₁ e₂ : EmitState} {d : Word} {ss : List Stmt}

/-- The words of the text up to a statement are among those of the image. -/
theorem Emission.reach (h : Emission o a ls b₁ b₂ b₃ e₁ e₂ b) (hfit : b.Fits split)
    (hpre : pre.foldlM (emitText o a) { bld := b₃ } = .ok e) (hpost : post.foldlM (emitText o a) e = .ok e₁) :
    e.bld.Fits split ∧ ∃ cs, e.bld.Shows o cs := by
  obtain ⟨cs₂, hcs₂, -⟩ := ((adds_foldlM (fun _ _ _ => adds_emitData) h.data).trans (puts_emitPool h.pool).adds) _
    (shows_empty o)
  obtain ⟨cs, hcs, -⟩ := adds_emitText hpre _ (hcs₂.onlyWrites (onlyWrites_emitWrites h.writes))
  have hrest : e.bld.Adds o b :=
    ((adds_emitText hpost).trans (adds_emitArena h.arena)).trans (puts_emitPool h.cold).adds
  refine ⟨?_, cs, hcs⟩
  have htext := hrest.length_le hcs .text
  have hrtext := hrest.length_le hcs .rtext
  unfold Builder.Fits at hfit ⊢
  cases split
  · rw [if_neg Bool.false_ne_true] at hfit ⊢
    omega
  · rw [if_pos rfl] at hfit ⊢
    omega

/-- Behind `.ramtext`. -/
theorem TextAt.place_split (h : TextAt d a₁ e) (hfit : e.bld.Fits true) (hsplit : a₁.split = true) :
    e.out = .rtext ∧ a₁.splitOff ≤ a₁.textOff ∧ e.bld.len .rtext = a₁.textOff - a₁.splitOff := by
  obtain ⟨hpos, hout, htext, -⟩ := h
  rw [hsplit, if_pos rfl] at hout htext
  have hT := hfit.text
  have hTR := hfit.textLen
  rw [htext] at hT
  rw [hpos] at hTR
  refine ⟨hout, BitVec.le_def.mpr (by omega), ?_⟩
  rw [← hpos, Builder.textLen]
  bv_omega

/-- Before it. -/
theorem TextAt.place_whole (h : TextAt d a₁ e) (hsplit : a₁.split = false) :
    e.out = .text ∧ e.bld.len .text = a₁.textOff := by
  obtain ⟨-, hout, htext, -⟩ := h
  rw [hsplit] at hout htext
  exact ⟨hout, htext⟩

theorem LaysAll.whole (h : LaysAll o a₁ ls a₂) (hno : a₂.split = false) : a₁.split = false :=
  Bool.eq_false_iff.mpr fun hsplit => Bool.eq_false_iff.mp hno (h.split_kept hsplit).1

/-- Between a statement and `.ramtext` the text grows if and only if a statement between
    them puts something into it. -/
theorem PassOne.grows_iff (hp : PassOne o ls pre l post a₁ a₂) (hall : ({} : Asm).layStmts o ss = .ok (a₀, ls))
    (hsole : ∀ l ∈ ls, l.stmt.Sole) (ho : o.compact = true → o.IsCompact) (hat : TextAt d a₂ e)
    (hpost : post = mid ++ r :: ls') (hdir : r.stmt.dir = "ramtext") (he : mid.foldlM (emitText o a) e = .ok e')
    {cs : Cells} (hcs : e.bld.Shows o cs) :
    (e.bld.words .text).length < (e'.bld.words .text).length ↔ ∃ m ∈ mid, m.emitsText = true := by
  constructor
  · intro hlt
    by_contra hnone
    have hstill := emitText_still he fun m hm => Bool.eq_false_iff.mpr fun h => hnone ⟨m, hm, h⟩
    rw [hstill] at hlt
    exact Nat.lt_irrefl _ hlt
  · rintro ⟨m, hm, hemits⟩
    obtain ⟨mid₁, mid₂, rfl⟩ := List.append_of_mem hm
    rw [List.append_assoc] at hpost
    have hlate (x : Laid) (hx : x ∈ mid₁ ++ m :: (mid₂ ++ r :: ls')) : x.stmt.Sole :=
      hsole x (hp.cut ▸ List.mem_append_right _ (List.mem_cons_of_mem _ (hpost ▸ hx)))
    obtain ⟨aₘ, aₘ', hmid₁, hm', hmid₂⟩ := layStmts_cut (hpost ▸ hp.after hall)
    have hpm := hp.later hpost hmid₁ hm'
    -- The text is still whole where `m` stands.
    obtain ⟨a', hlays, hno, -⟩ := (laysAll_of_layStmts hmid₂).1.at_ramtext (hlate r (by simp)) hdir
    have hwhole : aₘ.split = false := LaysAll.whole (.cons hpm.lays.2 (.nil _)) (hlays.whole hno)
    obtain ⟨eₘ, he₁, he₂⟩ := foldlM_append_eq_ok.mp he
    obtain ⟨eₘ', hem, he₃⟩ := foldlM_cons_eq_ok.mp he₂
    have hatm := hat.run (laysAll_of_layStmts hmid₁).1 he₁ fun x hx => hlate x (List.mem_append_left _ hx)
    have hlt := hpm.emits_more (hlate m (by simp)) ho (emits_of_emitText hem) hatm.st hemits
    rw [(hatm.place_whole hwhole).1] at hlt
    obtain ⟨csₘ, hcsₘ, -⟩ := adds_emitText he₁ _ hcs
    obtain ⟨csₘ', hcsₘ', -⟩ := (emits_of_emitText hem).adds _ hcsₘ
    calc (e.bld.words .text).length ≤ (eₘ.bld.words .text).length := (adds_emitText he₁).length_le hcs .text
      _ < (eₘ'.bld.words .text).length := hlt
      _ ≤ (e'.bld.words .text).length := (adds_emitText he₃).length_le hcsₘ' .text

theorem Lays.label_textOff {s : Stmt} (h : Lays o a₁ s a₂ l) (hlabel : s.label ≠ "") : a₂.textOff = a₁.textOff := by
  cases h with
  | label => rfl
  | text h | ramtext h | data h | entry _ h | words h | textWords h | space _ _ h | regs h | write _ h | noSniff h
  | instr _ _ _ h | nothing h => exact absurd h hlabel

theorem symLoc_text (off : Word) : a.symLoc ⟨true, off⟩ 0 =
    if a.split = true ∧ a.splitOff ≤ off then (.rtext, off - a.splitOff) else (.text, off) := by
  rw [Asm.symLoc, show off + 0 = off from BitVec.add_zero off]
  rfl

/-- The offset of a statement that emits nothing is the place where pass 2 comes to it, if
    and only if something stands between it and `.ramtext`. -/
theorem Emission.place_iff (h : Emission o a ls b₁ b₂ b₃ e₁ e₂ b) (hall : ({} : Asm).layStmts o ss = .ok (a₀, ls))
    (hsole : ∀ l ∈ ls, l.stmt.Sole) (ho : o.compact = true → o.IsCompact) (hfin : a₀.finish o = .ok a) (hfit : b.Fits a.split)
    (hp : PassOne o ls pre l post a₁ a₂) (hlabel : l.stmt.label ≠ "")
    (hpre : pre.foldlM (emitText o a) { bld := b₃ } = .ok e) :
    a.symLoc ⟨true, a₁.textOff⟩ 0 = (e.out, e.bld.len e.out) ↔
      ∀ mid r ls', post = mid ++ r :: ls' → r.stmt.dir = "ramtext" → ∃ m ∈ mid, m.emitsText = true := by
  obtain ⟨-, -, hsplit, hoff, -⟩ := finish_spec hfin (laysAll_of_layStmts hall).1.litText_eq
  have hlays := (laysAll_of_layStmts (hp.after hall)).1
  have hsolePre (x : Laid) (hx : x ∈ pre) : x.stmt.Sole := hsole x (hp.cut ▸ List.mem_append_left _ hx)
  have hsolePost (x : Laid) (hx : x ∈ post) : x.stmt.Sole :=
    hsole x (hp.cut ▸ List.mem_append_right _ (List.mem_cons_of_mem _ hx))
  have hat := (h.start (laysAll_of_layStmts hall).1 hsole hfin).run hp.lays.1 hpre hsolePre
  -- The label itself changes nothing.
  obtain ⟨hdir, hmnem⟩ := (hsole l hp.mem).1 hlabel
  obtain ⟨e₁', hpre', hrest⟩ := foldlM_append_eq_ok.mp (hp.cut ▸ h.text)
  cases hpre.symm.trans hpre'
  obtain ⟨e₂', hl, hpost⟩ := foldlM_cons_eq_ok.mp hrest
  have hat₂ := hat.step hp.lays.2 (emits_of_emitText hl) (hsole l hp.mem)
  obtain rfl : e₂' = e := (emits_of_emitText hl).idle (hdir ▸ by decide) (fun h => by simp [hdir] at h) hmnem
  obtain ⟨hfite, cs, hcs⟩ := h.reach hfit hpre hrest
  rw [← hp.lays.2.label_textOff hlabel, symLoc_text, hsplit, hoff]
  cases hs : a₂.split with
  | true =>
    obtain ⟨hs₀, hoff₀⟩ := hlays.split_kept hs
    obtain ⟨hout, hle, hlen⟩ := hat₂.place_split (hs₀ ▸ hsplit ▸ hfite) hs
    refine iff_of_true ?_ fun mid r ls' hcut hr => ?_
    · rw [hoff₀, if_pos ⟨hs₀, hle⟩, hout, hlen]
    · subst hcut
      obtain ⟨a', hmid, hno, -⟩ := hlays.at_ramtext (hsolePost r (by simp)) hr
      cases hs.symm.trans (hmid.whole hno)
  | false =>
    obtain ⟨hout, hlen⟩ := hat₂.place_whole hs
    rw [hout, hlen]
    cases hs₀ : a₀.split with
    | false =>
      refine iff_of_true (if_neg fun h => nomatch h.1) fun mid r ls' hcut hr => ?_
      subst hcut
      obtain ⟨a', -, -, hyes, -⟩ := hlays.at_ramtext (hsolePost r (by simp)) hr
      cases hs₀.symm.trans hyes
    | true =>
      -- The offset of `.ramtext` is the length of the text there.
      have key (mid : List Laid) (r : Laid) (ls' : List Laid) (hcut : post = mid ++ r :: ls')
          (hr : r.stmt.dir = "ramtext") : ¬a₀.splitOff ≤ a₂.textOff ↔ ∃ m ∈ mid, m.emitsText = true := by
        obtain ⟨a', hmid, hno, -, hoff'⟩ := (hcut ▸ hlays).at_ramtext (hsolePost r (hcut ▸ by simp)) hr
        obtain ⟨e', he, he'⟩ := foldlM_append_eq_ok.mp (hcut ▸ hpost)
        have hat' := hat₂.run hmid he fun x hx => hsolePost x (hcut ▸ List.mem_append_left _ hx)
        have hreach : (pre ++ l :: mid).foldlM (emitText o a) { bld := b₃ } = .ok e' :=
          foldlM_append_eq_ok.mpr ⟨_, hpre, foldlM_cons_eq_ok.mpr ⟨_, hl, he⟩⟩
        have hlen' := (hat'.place_whole hno).2
        rw [← hp.grows_iff hall hsole ho hat₂ hcut hr he hcs, hoff', ← hlen', ← hlen, BitVec.le_def,
          hfite.text, (h.reach hfit hreach he').1.text]
        omega
      have hloc : ((if True ∧ a₀.splitOff ≤ a₂.textOff then (SegId.rtext, a₂.textOff - a₀.splitOff)
          else (.text, a₂.textOff)) = (.text, a₂.textOff)) ↔ ¬a₀.splitOff ≤ a₂.textOff := by
        by_cases hle : a₀.splitOff ≤ a₂.textOff <;> simp [hle]
      simp only [hloc]
      constructor
      · exact fun hnot mid r ls' hcut hr => (key mid r ls' hcut hr).mp hnot
      · intro hsome
        obtain ⟨mid, r, ls', hcut, hr⟩ := hlays.exists_ramtext hs hs₀
        exact (key mid r ls' hcut hr).mpr (hsome mid r ls' hcut hr)

end

end DmaCpu.Dmaasm
