-- SUMMARY: The two passes agree on sizes: what pass 2 emits for a statement has the length that pass 1 reserved.
import DmaCpu.Dmaasm.Passes

/-!
# The sizes of the two passes

Pass 1 counts the bytes of text and of data. Here the bytes that pass 2 emits are
counted in the same way, statement by statement. Offsets are words and may wrap, so
all lengths are taken modulo 2^32.
-/
namespace DmaCpu.Dmaasm

open Emu Function Fallible List BitVec

/-! ## Lengths of segments -/

/-- From `b` to `b'` the segment `s` has grown by `n` bytes and the others are as they
    were. -/
def Builder.Grows (b b' : Builder) (s : SegId) (n : Word) : Prop :=
  ∀ t, b'.len t = b.len t + if t = s then n else 0

section

variable {b b' b'' : Builder} {s : SegId} {n k : Word} (o : Options)

theorem Builder.Grows.refl (b : Builder) (s : SegId) : b.Grows b s 0 := by
  intro t
  rw [ite_self]
  exact (BitVec.add_zero _).symm

theorem Builder.Grows.trans (h : b.Grows b' s n) (h' : b'.Grows b'' s k) : b.Grows b'' s (n + k) := by
  intro t
  rw [h' t, h t, BitVec.add_assoc]
  split
  · rfl
  · exact congrArg _ (BitVec.add_zero _)

theorem Builder.grows_word (b : Builder) (s : SegId) (v : Word) : b.Grows (b.word s v) s 4 := by
  intro t
  simp only [Builder.len, Builder.word, update_apply]
  split
  next h => rw [h, length_append, Nat.mul_add, ofNat_add]; rfl
  next => exact (BitVec.add_zero _).symm

/-- From `b` to `b'` there are `n` words more in segment `s`. -/
inductive Builder.Puts (o : Options) (s : SegId) (b : Builder) : Nat → Builder → Prop where
  | refl : Puts o s b 0 b
  | word {n : Nat} {b' : Builder} (h : Puts o s b n b') (v : Word) : Puts o s b (n + 1) (b'.word s v)
  | wordRef {n : Nat} {b' : Builder} (h : Puts o s b n b') (ref : SegId) (off : Word) :
    Puts o s b (n + 1) (b'.wordRef o s ref off)

variable {o} {i j : Nat}

theorem Builder.Puts.trans (h : b.Puts o s i b') (h' : b'.Puts o s j b'') : b.Puts o s (i + j) b'' := by
  induction h' with
  | refl => exact h
  | word _ v ih => exact ih.word v
  | wordRef _ ref off ih => exact ih.wordRef ref off

theorem Builder.Puts.grows (h : b.Puts o s i b') : b.Grows b' s (BitVec.ofNat 32 (4 * i)) := by
  induction h with
  | refl => exact .refl b s
  | word _ v ih | wordRef _ _ v ih =>
    rw [Nat.mul_succ, ofNat_add]
    exact ih.trans (Builder.grows_word _ s _)

theorem Builder.Puts.grows_mul (h : b.Puts o s (i * j) b') :
    b.Grows b' s (BitVec.ofNat 32 (4 * i) * BitVec.ofNat 32 j) := by
  rw [← ofNat_mul, Nat.mul_assoc]
  exact h.grows

theorem Builder.puts_word (b : Builder) (v : Word) : b.Puts o s 1 (b.word s v) := .word .refl v

theorem Builder.puts_ptr (b : Builder) (p : Ptr) : b.Puts o s 1 (b.ptr o s p) := by
  cases p with
  | abs addr => exact .word .refl addr
  | into ref off => exact .wordRef .refl ref off

theorem Builder.puts_recordP (b : Builder) (read write : Ptr) : b.Puts o s 2 (b.recordP o s read write) :=
  (b.puts_ptr read).trans (Builder.puts_ptr _ write)

/-- What each element of a list adds, the list adds as often. -/
theorem Builder.puts_foldl {α : Type} {f : Builder → α → Builder} (hf : ∀ (b : Builder) x, b.Puts o s i (f b x))
    (xs : List α) (b : Builder) : b.Puts o s (i * xs.length) (xs.foldl f b) := by
  induction xs generalizing b with
  | nil => exact .refl
  | cons x xs ih =>
    rw [length_cons, Nat.mul_succ, Nat.add_comm]
    exact (hf b x).trans (ih _)

theorem Builder.puts_records (b : Builder) (rs : List (Ptr × Ptr)) : b.Puts o s (2 * rs.length) (b.records o s rs) :=
  Builder.puts_foldl (fun b (r : Ptr × Ptr) => b.puts_recordP r.1 r.2) rs b

theorem Builder.puts_blocks (b : Builder) (ms : List Mv) : b.Puts o s (4 * ms.length) (b.blocks o s ms) :=
  Builder.puts_foldl (fun b (m : Mv) => ((b.puts_recordP m.src m.dst).word m.count).word m.ctrl) ms b

variable {a : Asm}

theorem Builder.puts_wordArgs {line : Nat} {args : List String} (h : b.wordArgs o a s line args = .ok b') :
    b.Puts o s args.length b' := by
  induction args generalizing b with
  | nil =>
    cases h
    exact .refl
  | cons arg args ih =>
    rw [length_cons, Nat.add_comm]
    unfold Builder.wordArgs at h
    split at h
    · exact (b.puts_word _).trans (ih h)
    · split at h
      · cases h
      · exact (Puts.refl.wordRef _ _).trans (ih h)

theorem puts_poolWord {op : Operand} (h : poolWord o a b s op = .ok b') : b.Puts o s 1 b' := by
  unfold poolWord at h
  split at h
  · cases h
    exact b.puts_word _
  · split at h
    · cases h
    · cases h
      exact .wordRef .refl _ _

theorem puts_emitPool {cold : Bool} {ks : List String} (h : emitPool o a cold s b ks = .ok b') :
    b.Puts o s (ks.countP fun k => (a.litText k).isSome == cold) b' := by
  induction ks generalizing b with
  | nil =>
    cases h
    exact .refl
  | cons k ks ih =>
    unfold emitPool at h
    split at h
    next hk =>
      obtain ⟨b₁, hword, hrest⟩ := bind_eq_ok.mp h
      rw [countP_cons, hk, beq_self_eq_true, Nat.add_comm]
      exact (puts_poolWord hword).trans (ih hrest)
    next hk =>
      rw [countP_cons, beq_eq_false_iff_ne.mpr hk]
      exact ih h

end

/-! ## Tables and offsets -/

namespace Asm

/-- The tables but for the literals. -/
def unpooled (a : Asm) : Asm :=
  { a with litOrder := [], lits := fun _ => none, ramLits := fun _ => false, sysLits := fun _ => false }

/-- The tables but for what a scan changes. -/
def unscanned (a : Asm) : Asm := { a.unpooled with syms := fun _ => none, genLabel := 0, jpairs := [] }

theorem internLit_unpooled (a : Asm) (op : Operand) : (a.internLit op).unpooled = a.unpooled := by
  unfold internLit
  dsimp only
  split <;> split <;> rfl

theorem internSys_unpooled (a : Asm) (v : Word) : (a.internSys v).unpooled = a.unpooled :=
  a.internLit_unpooled (.litNum v)

theorem planLits_unpooled (a : Asm) (shapes : List Cshape) : (a.internPlanLits shapes).unpooled = a.unpooled :=
  foldlRecOn (motive := fun a' : Asm => a'.unpooled = a.unpooled) _ _ rfl fun a' h v _ =>
    (a'.internSys_unpooled v).trans h

theorem acts_unscanned (acts : List Act) (a : Asm) : (acts.foldl act a).unscanned = a.unscanned := by
  refine foldlRecOn (motive := fun a' : Asm => a'.unscanned = a.unscanned) acts _ rfl fun a' h x _ =>
    Eq.trans ?_ h
  cases x with
  | intern op => exact (congrArg unscanned (a'.internLit_unpooled op) :)
  | label off =>
    exact (congrArg unscanned (({ a' with genLabel := a'.genLabel + 1 }.setSym (genName (a'.genLabel + 1))
      ⟨true, off⟩).internLit_unpooled (.litSym (genName (a'.genLabel + 1)))) :)
  | pair p => rfl

/-- The registers are 32 words of data. -/
theorem layRegs_eq (a : Asm) :
    ∃ syms, a.layRegs = { a with syms := syms, dataOff := a.dataOff + 128, hasRegs := true } := by
  have h (rs : List String) (a : Asm) : ∃ syms,
      rs.foldl (fun a r => { a.setSym r ⟨false, a.dataOff⟩ with dataOff := a.dataOff + 4 }) a =
        { a with syms := syms, dataOff := a.dataOff + 4 * BitVec.ofNat 32 rs.length } := by
    induction rs generalizing a with
    | nil => exact ⟨a.syms, congrArg (fun d => { a with dataOff := d }) (BitVec.add_zero _).symm⟩
    | cons r rs ih =>
      obtain ⟨syms, hsyms⟩ := ih { a.setSym r ⟨false, a.dataOff⟩ with dataOff := a.dataOff + 4 }
      refine ⟨syms, hsyms.trans ?_⟩
      rw [length_cons, BitVec.ofNat_add, BitVec.mul_add, BitVec.add_comm (4 * _), ← BitVec.add_assoc]
      rfl
  exact h abiRegs { a with hasRegs := true }

/-- The bytes that pass 1 reserves for an instruction. -/
def reserved (o : Options) (mnem : Mnem) (shapes : List Cshape) : Word :=
  if o.compact then 8 * planCount shapes else 16 * BitVec.ofNat 32 mnem.blocks

/-- The tables after an instruction. -/
theorem placeInstr_spec (o : Options) (a : Asm) (acts : List Act) (s : Stmt) (mnem : Mnem) (shapes : List Cshape) :
    let a' := ((acts.foldl act a).placeInstr o s mnem shapes).1
    a'.textOff = a.textOff + reserved o mnem shapes ∧ a'.dataOff = a.dataOff ∧ a'.split = a.split ∧
      a'.splitOff = a.splitOff ∧ a'.inData = a.inData ∧ a'.litText = a.litText ∧
      a'.payloadDelta = if o.compact then
        update a.payloadDelta a.textOff (some (planPayloadDelta shapes)) else a.payloadDelta := by
  have h := acts_unscanned acts a
  have h' := (congrArg unscanned (planLits_unpooled (acts.foldl act a) shapes) :).trans h
  unfold placeInstr reserved
  split
  · generalize (acts.foldl act a).internPlanLits shapes = a' at h'
    have htext : a'.textOff = a.textOff := (congrArg textOff h' :)
    have hdelta : a'.payloadDelta = a.payloadDelta := (congrArg payloadDelta h' :)
    dsimp only
    rw [htext, hdelta]
    exact ⟨rfl, (congrArg dataOff h' :), (congrArg split h' :), (congrArg splitOff h' :), (congrArg inData h' :),
      (congrArg litText h' :), rfl⟩
  · exact ⟨congrArg (· + _) (congrArg textOff h :), (congrArg dataOff h :), (congrArg split h :),
      (congrArg splitOff h :), (congrArg inData h :), (congrArg litText h :), (congrArg payloadDelta h :)⟩

/-- Placing an instruction generates nothing. -/
theorem placeInstr_names (o : Options) (a : Asm) (s : Stmt) (mnem : Mnem) (shapes : List Cshape) :
    let a' := (a.placeInstr o s mnem shapes).1
    a'.syms = a.syms ∧ a'.genLabel = a.genLabel ∧ a'.jpairs = a.jpairs := by
  have h := a.planLits_unpooled shapes
  unfold placeInstr
  split
  · exact ⟨(congrArg syms h :), (congrArg genLabel h :), (congrArg jpairs h :)⟩
  · exact ⟨rfl, rfl, rfl⟩

theorem placeInstr_snd {o : Options} (hc : o.compact = true) (a : Asm) (s : Stmt) (mnem : Mnem)
    (shapes : List Cshape) : (a.placeInstr o s mnem shapes).2 = planCount shapes := by
  unfold placeInstr
  rw [if_pos hc]

end Asm

/-! ## Instructions -/

section

variable {c : EmitCtx} {mnem : Mnem} {args : List String} {ms : List Mv} {gen pair : Nat}

/-- A classic instruction has as many blocks as its mnemonic says. -/
theorem moves_length (hc : c.opts.compact = false) (hhalt : mnem ≠ .halt) :
    Fallible.Ensures (c.moves mnem args) fun r => r.1.length = mnem.blocks := by
  have one {x : Except AsmError Ptr} {f : Ptr → List Mv × Nat × Nat} (h : ∀ p, (f p).1.length = mnem.blocks) :
      Fallible.Ensures (x.bind fun p => .ok (f p)) fun r => r.1.length = mnem.blocks :=
    ensures_bind fun p => ensures_ok (h p)
  cases mnem with
  | halt => exact absurd rfl hhalt
  | move => exact ensures_bind fun _ => ensures_bind fun _ => one fun _ => rfl
  | add | sub | or | xor | andn =>
    exact ensures_bind fun _ => ensures_bind fun _ => one fun _ => rfl
  | and => exact ensures_bind fun _ => ensures_bind fun _ => ensures_bind fun _ => one fun _ => rfl
  | shl => exact ensures_bind fun _ => one fun _ => rfl
  | mulc =>
    simp only [EmitCtx.moves, hc]
    exact ensures_bind fun _ => one fun _ => rfl
  | jump | gpio | nop => exact ensures_ok rfl
  | jumpr | jneg | call | ret => exact one fun _ => rfl
  | safepoint | jsign => exact ensures_bind fun _ => one fun _ => rfl
  | jeq =>
    simp only [EmitCtx.moves, EmitCtx.jeqMoves, hc]
    exact ensures_bind fun _ => ensures_bind fun _ => ensures_bind fun _ => one fun _ => rfl
  | jlt | jltu =>
    simp only [EmitCtx.moves, EmitCtx.lessMoves, hc]
    exact ensures_bind fun _ => ensures_bind fun _ => ensures_bind fun _ =>
      ensures_bind fun _ => one fun _ => rfl
  | jbool =>
    simp only [EmitCtx.moves, hc]
    exact one fun _ => rfl

end

/-! ## Text -/

/-- The bytes of text, before and after `.ramtext`. -/
def Builder.textLen (b : Builder) : Word := b.len .text + b.len .rtext

/-- Pass 2 at `e`, with `d` bytes of data, is where pass 1 was with its tables at `a₁`. -/
structure TextAt (d : Word) (a₁ : Asm) (e : EmitState) : Prop where
  pos : e.bld.textLen = a₁.textOff
  out : e.out = if a₁.split then .rtext else .text
  text : e.bld.len .text = if a₁.split then a₁.splitOff else a₁.textOff
  data : e.bld.len .data = d
  st : e.st = .init

section

variable {o : Options} {a a₁ a₂ : Asm} {e e' : EmitState} {s : Stmt} {l : Laid} {d n : Word}

theorem TextAt.congr (h : TextAt d a₁ e) (htext : a₂.textOff = a₁.textOff) (hsplit : a₂.split = a₁.split)
    (hoff : a₂.splitOff = a₁.splitOff) : TextAt d a₂ e := by
  refine ⟨h.pos.trans htext.symm, ?_, ?_, h.data, h.st⟩
  · rw [hsplit, h.out]
  · rw [hsplit, hoff, htext, h.text]

/-- Both go on by `n` bytes. -/
theorem TextAt.grow (h : TextAt d a₁ e) {b : Builder} (hb : e.bld.Grows b e.out n) (htext : a₂.textOff = a₁.textOff + n)
    (hsplit : a₂.split = a₁.split) (hoff : a₂.splitOff = a₁.splitOff) (gen pair : Nat) :
    TextAt d a₂ ⟨b, e.out, .init, gen, pair⟩ := by
  have hout := h.out
  have hpos : b.textLen = e.bld.textLen + n := by
    unfold Builder.textLen
    rw [hb .text, hb .rtext, hout]
    cases a₁.split
    · simp only [Bool.false_eq_true, if_false, if_true, reduceCtorEq]
      bv_omega
    · simp only [if_true, reduceCtorEq, if_false]
      bv_omega
  refine ⟨by rw [hpos, h.pos, htext], by rw [hsplit, hout], ?_, ?_, rfl⟩
  · rw [hb .text, h.text, hout, hsplit, hoff, htext]
    cases a₁.split
    · rfl
    · exact BitVec.add_zero _
  · rw [hb .data, h.data, hout]
    cases a₁.split <;> exact BitVec.add_zero _

/-- A statement that is not for pass 2. -/
theorem Emits.idle (h : Emits o a e l e') (hram : l.stmt.dir ≠ "ramtext")
    (hword : ¬(l.stmt.dir = "word" ∧ l.inText = true)) (hmnem : l.stmt.mnem = "") : e' = e := by
  cases h with
  | ramtext h => exact absurd h hram
  | words h h' => exact absurd ⟨h, h'⟩ hword
  | nothing => rfl
  | compact _ _ h | classic _ _ h =>
    rw [hmnem] at h
    cases h

theorem Stmt.Sole.of_dir (h : s.Sole) {dir : String} (hdir : s.dir = dir) (hne : dir ≠ "") : s.mnem = "" :=
  h.2 (hdir ▸ hne)

/-- A directive that emits nothing. -/
theorem Emits.idle_dir (h : Emits o a e { stmt := s } e') (hsole : s.Sole) {dir : String} (hdir : s.dir = dir)
    (hne : dir ≠ "") (hram : dir ≠ "ramtext") : e' = e :=
  h.idle (hdir ▸ hram) (fun h => nomatch h.2) (hsole.of_dir hdir hne)

theorem TextAt.step (h : TextAt d a₁ e) (hlays : Lays o a₁ s a₂ l) (hemits : Emits o a e l e') (hsole : s.Sole) :
    TextAt d a₂ e' := by
  cases hlays with
  | label hlabel =>
    obtain ⟨hdir, hmnem⟩ := hsole.1 hlabel
    rw [hemits.idle (hdir ▸ by decide) (fun h => nomatch h.2) hmnem]
    exact h.congr rfl rfl rfl
  | text _ hdir | data _ hdir | entry _ _ hdir | words _ hdir | space _ _ _ hdir
  | write _ _ hdir | noSniff _ hdir =>
    rw [hemits.idle_dir hsole hdir (by decide) (by decide)]
    exact h.congr rfl rfl rfl
  | regs _ hdir =>
    rw [hemits.idle_dir hsole hdir (by decide) (by decide)]
    obtain ⟨_, heq⟩ := a₁.layRegs_eq
    rw [heq]
    exact h.congr rfl rfl rfl
  | nothing _ hdir hmnem =>
    rw [hemits.idle (hdir ▸ by decide) (fun h => nomatch h.2) hmnem]
    exact h
  | ramtext _ hdir _ hsplit =>
    cases hemits with
    | ramtext =>
      refine ⟨h.pos, rfl, ?_, h.data, h.st⟩
      rw [h.text, hsplit]
      rfl
    | words h => exact absurd (hdir.symm.trans h) (by decide)
    | nothing h | compact h | classic h => exact absurd hdir h
  | textWords _ hdir =>
    cases hemits with
    | ramtext h => exact absurd (hdir.symm.trans h) (by decide)
    | words _ _ hb =>
      have hst := h.st
      obtain ⟨bld, out, st, gen, pair⟩ := e
      obtain rfl : st = .init := hst
      refine h.grow (Builder.puts_wordArgs hb).grows ?_ ?_ ?_ gen pair <;> rfl
    | nothing _ h | compact _ h | classic _ h => exact absurd ⟨hdir, rfl⟩ h
  | instr mnem shapes acts _ hdir hmnem hdata hscan =>
    obtain ⟨htext, -, hsplit, hoff, -⟩ := a₁.placeInstr_spec o acts s mnem shapes
    cases hemits with
    | ramtext h | words h => exact absurd (hdir.symm.trans h) (by decide)
    | nothing _ _ h => cases hmnem.symm.trans h
    | compact _ _ hmnem' hc hmoves hrs =>
      rw [h.st] at hrs
      obtain ⟨rfl, hlen, -⟩ := instrRecords_eq_ok hrs
      refine h.grow (Builder.puts_records ..).grows_mul ?_ hsplit hoff _ _
      rw [htext, Asm.reserved, if_pos hc, hlen, Asm.placeInstr_snd hc]
      rfl
    | @classic mnem' ms _ _ _ _ hmnem' hc hmoves =>
      cases hmnem.symm.trans hmnem'
      have hst := h.st
      have hblocks : (if mnem = .halt then [haltMv] else ms).length = mnem.blocks := by
        split
        next heq => rw [heq]; rfl
        next hne => exact moves_length hc hne _ hmoves
      obtain ⟨bld, out, st, gen, pair⟩ := e
      obtain rfl : st = .init := hst
      refine h.grow (Builder.puts_blocks ..).grows_mul ?_ hsplit hoff _ _
      rw [htext, Asm.reserved, hc, hblocks]
      rfl

/-- The two loops over the text keep step. -/
theorem TextAt.run {ls : List Laid} (h : TextAt d a₁ e) (hlays : LaysAll o a₁ ls a₂)
    (hemits : ls.foldlM (emitText o a) e = .ok e') (hsole : ∀ l ∈ ls, l.stmt.Sole) : TextAt d a₂ e' := by
  induction hlays generalizing e with
  | nil =>
    cases hemits
    exact h
  | cons hl _ ih =>
    obtain ⟨e₁, htext, hrest⟩ := foldlM_cons_eq_ok.mp hemits
    obtain ⟨hs, hsole⟩ := forall_mem_cons.mp hsole
    exact ih (h.step hl (emits_of_emitText htext) hs) hrest hsole

theorem textAt_start {b : Builder} (htext : b.len .text = 0) (hrtext : b.len .rtext = 0) :
    TextAt (b.len .data) {} { bld := b } := by
  refine ⟨?_, rfl, htext, rfl, rfl⟩
  rw [Builder.textLen, htext, hrtext]
  rfl

/-! ## Data -/

theorem grows_emitData_idle {b b' : Builder} (h : emitData o a b l = .ok b') (hdir : l.stmt.dir ≠ "word" ∨ l.inText = true)
    (hspace : l.stmt.dir ≠ "space") (hregs : l.stmt.dir ≠ "regs") : b' = b := by
  unfold emitData at h
  split at h
  next hword =>
    split at h
    · cases h
      rfl
    next hin => exact absurd (hdir.resolve_left (fun h => h hword)) hin
  next h' => exact absurd h' hspace
  next h' => exact absurd h' hregs
  next =>
    cases h
    rfl

/-- Pass 2 emits the data that pass 1 counted. -/
theorem grows_emitData {b b' : Builder} (hlays : Lays o a₁ s a₂ l) (h : emitData o a b l = .ok b')
    (hsole : s.Sole) : ∃ n, a₂.dataOff = a₁.dataOff + n ∧ b.Grows b' .data n := by
  have idle {a₂ : Asm} {l : Laid} {dir : String} (h : emitData o a b l = .ok b') (hdir : l.stmt.dir = dir)
      (hoff : a₂.dataOff = a₁.dataOff) (hne : dir ≠ "word" ∨ l.inText = true) (hspace : dir ≠ "space")
      (hregs : dir ≠ "regs") : ∃ n, a₂.dataOff = a₁.dataOff + n ∧ b.Grows b' .data n := by
    subst hdir
    rw [grows_emitData_idle h hne hspace hregs, hoff]
    exact ⟨0, (BitVec.add_zero _).symm, .refl b _⟩
  cases hlays with
  | label hlabel => exact idle h (hsole.1 hlabel).1 rfl (.inl (by decide)) (by decide) (by decide)
  | text _ hdir | data _ hdir | entry _ _ hdir | write _ _ hdir | noSniff _ hdir
  | ramtext _ hdir | nothing _ hdir =>
    exact idle h hdir rfl (.inl (by decide)) (by decide) (by decide)
  | textWords _ hdir => exact idle h hdir rfl (.inr rfl) (by decide) (by decide)
  | instr mnem shapes acts _ hdir =>
    have hoff := (a₁.placeInstr_spec o acts s mnem shapes).2.1
    exact idle h hdir hoff (.inl (by decide)) (by decide) (by decide)
  | words _ hdir =>
    have hemit : b.wordArgs o a .data s.line s.args = .ok b' := by
      rw [← h]
      simp [emitData, hdir]
    exact ⟨_, rfl, (Builder.puts_wordArgs hemit).grows⟩
  | space arg n _ hdir _ hargs hn hmod =>
    simp only [emitData, hdir, hargs, getD_cons_zero, hn, Option.getD_some, Except.ok.injEq] at h
    subst h
    refine ⟨n, rfl, ?_⟩
    have hgrow := (Builder.puts_foldl (o := o) (fun b (_ : Nat) => b.puts_word (s := .data) 0)
      (List.range (n.toNat / 4)) b).grows
    have hbytes : 4 * (1 * (List.range (n.toNat / 4)).length) = n.toNat := by
      have hmod' : n.toNat % 4 = 0 := congrArg BitVec.toNat hmod
      rw [length_range]
      omega
    rw [hbytes, ofNat_toNat] at hgrow
    exact hgrow
  | regs _ hdir =>
    simp only [emitData, hdir, Except.ok.injEq] at h
    subst h
    obtain ⟨_, heq⟩ := a₁.layRegs_eq
    refine ⟨128, congrArg Asm.dataOff heq, ?_⟩
    exact (Builder.puts_foldl (o := o) (fun b (_ : String) => b.puts_word 0) abiRegs b).grows

theorem grows_emitData_all {b b' : Builder} {ls : List Laid} (hlays : LaysAll o a₁ ls a₂)
    (h : ls.foldlM (emitData o a) b = .ok b') (hsole : ∀ l ∈ ls, l.stmt.Sole) :
    ∃ n, a₂.dataOff = a₁.dataOff + n ∧ b.Grows b' .data n := by
  induction hlays generalizing b with
  | nil a =>
    cases h
    exact ⟨0, (BitVec.add_zero _).symm, .refl _ _⟩
  | cons hl _ ih =>
    obtain ⟨b₁, hdata, hrest⟩ := foldlM_cons_eq_ok.mp h
    obtain ⟨hs, hsole⟩ := forall_mem_cons.mp hsole
    obtain ⟨n, hn, hgrow⟩ := grows_emitData hl hdata hs
    obtain ⟨k, hk, hgrow'⟩ := ih hrest hsole
    exact ⟨n + k, by rw [hk, hn, BitVec.add_assoc], hgrow.trans hgrow'⟩

/-! ## The pool -/

theorem Lays.litText_eq (h : Lays o a₁ s a₂ l) : a₂.litText = a₁.litText := by
  cases h with
  | regs =>
    obtain ⟨_, heq⟩ := a₁.layRegs_eq
    rw [heq]
  | instr mnem shapes acts => exact (a₁.placeInstr_spec o acts s mnem shapes).2.2.2.2.2.1
  | _ => rfl

theorem LaysAll.litText_eq {ls : List Laid} (h : LaysAll o a₁ ls a₂) : a₂.litText = a₁.litText := by
  induction h with
  | nil => rfl
  | cons hl _ ih => exact ih.trans hl.litText_eq

/-- What `layPool` does to the tables. -/
theorem layPool_eq (o : Options) (a : Asm) (cold : Word) (ks : List String) : ∃ offs text,
    a.layPool o cold ks = { a with
      litOffs := offs
      litText := text
      dataOff := a.dataOff + 4 * BitVec.ofNat 32 (ks.countP fun k => !a.isCold o k) } ∧
    ∀ k, (text k).isSome = ((a.litText k).isSome || decide (k ∈ ks) && a.isCold o k) := by
  induction ks generalizing a cold with
  | nil =>
    exact ⟨a.litOffs, a.litText, congrArg (fun d => { a with dataOff := d }) (BitVec.add_zero _).symm, by simp⟩
  | cons k ks ih =>
    unfold Asm.layPool
    split
    next hk =>
      obtain ⟨offs, text, heq, htext⟩ := ih { a with litText := update a.litText k (some cold) } (cold + 4)
      refine ⟨offs, text, heq.trans ?_, fun k' => ?_⟩
      · rw [countP_cons, hk]
        rfl
      · rw [htext k']
        change ((update a.litText k (some cold) k').isSome || decide (k' ∈ ks) && a.isCold o k') = _
        by_cases hk' : k' = k
        · subst hk'
          simp [hk]
        · simp [hk']
    next hk =>
      obtain ⟨offs, text, heq, htext⟩ :=
        ih { a with litOffs := update a.litOffs k (some a.dataOff), dataOff := a.dataOff + 4 } cold
      refine ⟨offs, text, heq.trans ?_, fun k' => ?_⟩
      · rw [countP_cons, Bool.eq_false_iff.mpr hk, Bool.not_false, Nat.add_comm, ofNat_add,
          BitVec.mul_add, ← BitVec.add_assoc]
        rfl
      · rw [htext k']
        change ((a.litText k').isSome || decide (k' ∈ ks) && a.isCold o k') = _
        by_cases hk' : k' = k
        · subst hk'
          simp [Bool.eq_false_iff.mpr hk]
        · simp [hk']

theorem layArena_eq (o : Options) (a : Asm) : ∃ syms, a.layArena o = { a with
    syms := syms
    textOff := a.textOff + BitVec.ofNat 32
      ((a.jpairs.length + o.pairsPerBank - 1) / o.pairsPerBank * 256) } := by
  have h (xs : List Nat) (base : Word) : ∃ syms,
      xs.foldl (fun a i => a.setSym (jpairName i) ⟨true, base + Asm.arenaOff o i⟩) a = { a with syms := syms } := by
    refine foldlRecOn (motive := fun a' : Asm => ∃ syms, a' = { a with syms := syms }) xs _ ⟨a.syms, rfl⟩ ?_
    rintro _ ⟨syms, rfl⟩ i -
    exact ⟨_, rfl⟩
  obtain ⟨syms, hsyms⟩ := h (List.range a.jpairs.length) a.textOff
  unfold Asm.layArena
  dsimp only
  rw [hsyms]
  exact ⟨syms, rfl⟩

/-- The words of the pool that are in the text. -/
def Asm.coldWords (a : Asm) : Nat := a.litOrder.countP fun k => (a.litText k).isSome == true

def Asm.residentWords (a : Asm) : Nat := a.litOrder.countP fun k => (a.litText k).isSome == false

/-- The tables that the pool is laid in. -/
def Asm.arena (o : Options) (a : Asm) : Asm :=
  if o.compact then (a.layArena o).internSys (Compact.window Compact.plain) else a.layArena o

theorem finish_eq {a₀ : Asm} (h : a₀.finish o = .ok a) :
    a = (a₀.arena o).layPool o (if (a₀.arena o).split then (a₀.arena o).splitOff else (a₀.arena o).textOff)
      (a₀.arena o).litOrder := by
  unfold Asm.finish at h
  split at h
  · cases h
  · dsimp only at h
    split at h
    · cases h
    · split at h
      · split at h
        · cases h
        · split at h
          · cases h
          · exact (Except.ok.inj h).symm
      · cases h

theorem arena_unpooled (o : Options) (a : Asm) : ∃ syms, (a.arena o).unpooled = { a.unpooled with
    syms := syms
    textOff := a.textOff + BitVec.ofNat 32
      ((a.jpairs.length + o.pairsPerBank - 1) / o.pairsPerBank * 256) } := by
  obtain ⟨syms, hsyms⟩ := layArena_eq o a
  refine ⟨syms, Eq.trans ?_ (congrArg Asm.unpooled hsyms)⟩
  unfold Asm.arena
  split
  · exact Asm.internSys_unpooled _ _
  · rfl

section

variable {a₀ : Asm} (h : a₀.finish o = .ok a)
include h

theorem finish_pool : ∃ offs text, a = { a₀.arena o with
      litOffs := offs
      litText := text
      dataOff := (a₀.arena o).dataOff +
        4 * BitVec.ofNat 32 ((a₀.arena o).litOrder.countP fun k => !(a₀.arena o).isCold o k) } ∧
    ∀ k, (text k).isSome =
      (((a₀.arena o).litText k).isSome || decide (k ∈ (a₀.arena o).litOrder) && (a₀.arena o).isCold o k) := by
  rw [finish_eq h]
  exact layPool_eq ..

/-- A literal of the pool is in the text if and only if it is cold. -/
theorem finish_cold (hnone : a₀.litText = fun _ => none) {k : String}
    (hk : k ∈ a.litOrder) : (a.litText k).isSome = (a₀.arena o).isCold o k := by
  obtain ⟨_, harena⟩ := arena_unpooled o a₀
  have hlit : (a₀.arena o).litText = a₀.litText := (congrArg Asm.litText harena :)
  obtain ⟨offs, text, heq, htext⟩ := finish_pool h
  rw [heq] at hk ⊢
  rw [htext k, hlit, hnone, Option.isSome_none, Bool.false_or, decide_eq_true hk, Bool.true_and]

/-- The tables at the end of pass 1. -/
theorem finish_spec (hnone : a₀.litText = fun _ => none) :
    a.textOff = a₀.textOff + BitVec.ofNat 32 ((a.jpairs.length + o.pairsPerBank - 1) / o.pairsPerBank * 256) ∧
      a.dataOff = a₀.dataOff + 4 * BitVec.ofNat 32 a.residentWords ∧ a.split = a₀.split ∧
      a.splitOff = a₀.splitOff ∧ a.payloadDelta = a₀.payloadDelta ∧ (a.split = false → a.coldWords = 0) := by
  obtain ⟨_, harena⟩ := arena_unpooled o a₀
  obtain ⟨offs, text, heq, -⟩ := finish_pool h
  have hsplit : a.split = (a₀.arena o).split := (congrArg Asm.split heq :)
  have horder : a.litOrder = (a₀.arena o).litOrder := (congrArg Asm.litOrder heq :)
  have hpairs : a.jpairs = a₀.jpairs := (congrArg Asm.jpairs heq :).trans (congrArg Asm.jpairs harena :)
  have hdata : (a₀.arena o).dataOff = a₀.dataOff := (congrArg Asm.dataOff harena :)
  refine ⟨?_, ?_, hsplit.trans (congrArg Asm.split harena :),
    (congrArg Asm.splitOff heq :).trans (congrArg Asm.splitOff harena :),
    (congrArg Asm.payloadDelta heq :).trans (congrArg Asm.payloadDelta harena :), fun hno => ?_⟩
  · rw [hpairs]
    exact (congrArg Asm.textOff heq :).trans (congrArg Asm.textOff harena :)
  · refine (congrArg Asm.dataOff heq :).trans ?_
    rw [hdata, ← horder]
    refine congrArg (fun n => a₀.dataOff + 4 * BitVec.ofNat 32 n) (countP_congr fun k hk => ?_)
    rw [finish_cold h hnone hk]
    cases (a₀.arena o).isCold o k <;> decide
  · refine countP_eq_zero.mpr fun k hk => ?_
    rw [finish_cold h hnone hk, Asm.isCold, ← hsplit, hno]
    simp

end

/-! ## The arena, the writes and the pool -/

/-- A slot of the arena is one record or one block. -/
theorem grows_emitSlot {neg : Bool} {i : Nat} (h : emitSlot o a e neg i = .ok e') (hst : e.st = .init) :
    e'.out = e.out ∧ e'.st = .init ∧ e.bld.Grows e'.bld e.out (BitVec.ofNat 32 o.slotSize) := by
  have hrecords {c : EmitCtx} {mnem : Mnem} {ms : List Mv}
      (h : (c.instrRecords e.st 1 mnem ms).map (fun x => { e with bld := e.bld.records o e.out x.1, st := x.2 })
        = .ok e') (hc : o.compact = true) :
      e'.out = e.out ∧ e'.st = .init ∧ e.bld.Grows e'.bld e.out (BitVec.ofNat 32 o.slotSize) := by
    obtain ⟨⟨rs, st⟩, hrs, rfl⟩ := map_eq_ok.mp h
    rw [hst] at hrs
    obtain ⟨rfl, hlen, -⟩ := instrRecords_eq_ok hrs
    refine ⟨rfl, rfl, ?_⟩
    have hgrows := (e.bld.puts_records (o := o) (s := e.out) rs).grows_mul
    rw [hlen] at hgrows
    rw [Options.slotSize, hc]
    exact hgrows
  have hblock {m : Mv} (h : .ok { e with bld := e.bld.blocks o e.out [m] } = (.ok e' : Except AsmError EmitState))
      (hc : ¬o.compact = true) :
      e'.out = e.out ∧ e'.st = .init ∧ e.bld.Grows e'.bld e.out (BitVec.ofNat 32 o.slotSize) := by
    cases h
    refine ⟨rfl, hst, ?_⟩
    rw [Options.slotSize, if_neg hc]
    exact (e.bld.puts_blocks [m]).grows
  unfold emitSlot at h
  split at h
  all_goals
    dsimp only at h
    split at h
    next hc => exact hrecords h hc
    next hc => exact hblock h hc

theorem grows_emitSlots {xs : List (Bool × Nat)} (h : xs.foldlM (fun e x => emitSlot o a e x.1 x.2) e = .ok e')
    (hst : e.st = .init) :
    e'.out = e.out ∧ e'.st = .init ∧ e.bld.Grows e'.bld e.out (BitVec.ofNat 32 (xs.length * o.slotSize)) := by
  induction xs generalizing e with
  | nil =>
    cases h
    rw [length_nil, Nat.zero_mul]
    exact ⟨rfl, hst, .refl _ _⟩
  | cons x xs ih =>
    obtain ⟨e₁, hslot, hrest⟩ := foldlM_cons_eq_ok.mp h
    obtain ⟨hout, hst₁, hgrows⟩ := grows_emitSlot hslot hst
    obtain ⟨hout', hst', hgrows'⟩ := ih hrest hst₁
    refine ⟨hout'.trans hout, hst', ?_⟩
    rw [hout] at hgrows'
    rw [length_cons, Nat.add_comm, Nat.add_mul, Nat.one_mul, ofNat_add]
    exact hgrows.trans hgrows'

/-- A bank of the arena is 256 bytes. -/
theorem arenaSlots_bytes (n : Nat) :
    (arenaSlots o n).length * o.slotSize = (n + o.pairsPerBank - 1) / o.pairsPerBank * 256 := by
  have hbank : 2 * o.pairsPerBank * o.slotSize = 256 := by
    unfold Options.pairsPerBank Options.slotSize
    cases o.compact <;> rfl
  have hlen : (arenaSlots o n).length = (n + o.pairsPerBank - 1) / o.pairsPerBank * (2 * o.pairsPerBank) := by
    simp only [arenaSlots, length_flatMap, flatMap_cons, flatMap_nil, append_nil, length_append,
      length_map, length_range, map_const', sum_replicate_nat]
    rw [Nat.two_mul]
  rw [hlen, Nat.mul_assoc, hbank]

/-- Only the list of writes changes. -/
def Builder.OnlyWrites (b b' : Builder) : Prop := ∃ ws, b' = { b with writes := ws }

theorem Builder.OnlyWrites.trans {b b' b'' : Builder} (h : b.OnlyWrites b') (h' : b'.OnlyWrites b'') :
    b.OnlyWrites b'' := by
  obtain ⟨ws, rfl⟩ := h
  obtain ⟨ws', rfl⟩ := h'
  exact ⟨ws', rfl⟩

theorem onlyWrites_addWrite (b : Builder) (addr v : Word) : b.OnlyWrites (b.addWrite addr v) := ⟨_, rfl⟩

theorem onlyWrites_addWriteRef (b : Builder) (addr : Word) (ref : SegId) (off : Word) :
    b.OnlyWrites (b.addWriteRef o addr ref off) := ⟨_, rfl⟩

theorem onlyWrites_foldl {α : Type} {f : Builder → α → Builder} (hf : ∀ (b : Builder) x, b.OnlyWrites (f b x))
    (xs : List α) (b : Builder) : b.OnlyWrites (xs.foldl f b) :=
  foldlRecOn xs f ⟨_, rfl⟩ fun b' h x _ => h.trans (hf b' x)

theorem onlyWrites_emitWrite {b b' : Builder} {w : WriteStmt} (h : emitWrite o a b w = .ok b') : b.OnlyWrites b' := by
  unfold emitWrite at h
  split at h
  · cases h
    exact ⟨_, rfl⟩
  · split at h
    · cases h
    · cases h
      exact ⟨_, rfl⟩

/-- The init writes are not in a segment. -/
theorem onlyWrites_emitWrites {b b' : Builder} (h : emitWrites o a b = .ok b') : b.OnlyWrites b' := by
  have hfold (ws : List WriteStmt) (b : Builder) (h : ws.foldlM (emitWrite o a) b = .ok b') : b.OnlyWrites b' := by
    induction ws generalizing b with
    | nil =>
      cases h
      exact ⟨_, rfl⟩
    | cons w ws ih =>
      obtain ⟨b₁, hw, hrest⟩ := foldlM_cons_eq_ok.mp h
      exact (onlyWrites_emitWrite hw).trans (ih b₁ hrest)
  refine .trans ?_ (hfold _ _ h)
  have hsniff : b.OnlyWrites (if a.noSniff then b else (b.addWrite o.variant.sniffCtrlAddr
      (sniffCtrlEN ||| sniffCtrlDmach o.exec ||| sniffCtrlCalc sniffCalcSum)).addWrite o.variant.sniffDataAddr 0) := by
    split
    · exact ⟨_, rfl⟩
    · exact (onlyWrites_addWrite _ _ _).trans (onlyWrites_addWrite _ _ _)
  refine hsniff.trans ?_
  generalize (if a.noSniff = true then b else _) = b₁
  split
  · refine .trans (.trans (.trans (.trans ?_ (onlyWrites_addWriteRef _ _ _ _)) (onlyWrites_addWrite _ _ _))
      (onlyWrites_addWrite _ _ _)) (onlyWrites_addWrite _ _ _)
    exact onlyWrites_foldl (fun b ch => (onlyWrites_addWrite b _ _).trans (onlyWrites_addWrite _ _ _)) _ _
  · exact ⟨_, rfl⟩

/-- The lengths of the segments that pass 1 has planned. -/
structure Asm.Lengths (a : Asm) (b : Builder) : Prop where
  data : b.len .data = a.dataOff
  text : b.len .text = (if a.split then a.splitOff else a.textOff) + 4 * BitVec.ofNat 32 a.coldWords
  rtext : b.len .rtext = if a.split then a.textOff - a.splitOff else 0

/-- The stages of pass 2. -/
structure Emission (o : Options) (a : Asm) (ls : List Laid) (b₁ b₂ b₃ : Builder) (e₁ e₂ : EmitState)
    (b : Builder) : Prop where
  data : ls.foldlM (emitData o a) {} = .ok b₁
  pool : emitPool o a false .data b₁ a.litOrder = .ok b₂
  writes : emitWrites o a b₂ = .ok b₃
  text : ls.foldlM (emitText o a) { bld := b₃ } = .ok e₁
  arena : emitArena o a e₁ = .ok e₂
  cold : emitPool o a true .text e₂.bld a.litOrder = .ok b

theorem exists_emission {ls : List Laid} {b : Builder} (h : emitImage o a ls = .ok b) :
    ∃ b₁ b₂ b₃ e₁ e₂, Emission o a ls b₁ b₂ b₃ e₁ e₂ b := by
  obtain ⟨b₁, hb₁, h⟩ := bind_eq_ok.mp h
  obtain ⟨b₂, hb₂, h⟩ := bind_eq_ok.mp h
  obtain ⟨b₃, hb₃, h⟩ := bind_eq_ok.mp h
  split at h
  · cases h
  · obtain ⟨e₁, he₁, h⟩ := bind_eq_ok.mp h
    obtain ⟨e₂, he₂, h⟩ := bind_eq_ok.mp h
    exact ⟨b₁, b₂, b₃, e₁, e₂, hb₁, hb₂, hb₃, he₁, he₂, h⟩

section

variable {a₀ : Asm} {ls : List Laid} {b₁ b₂ b₃ b : Builder} {e₁ e₂ : EmitState}
  (h : Emission o a ls b₁ b₂ b₃ e₁ e₂ b) (hlays : LaysAll o {} ls a₀) (hsole : ∀ l ∈ ls, l.stmt.Sole)

include h hlays hsole

theorem Emission.len_data : Builder.Grows {} b₁ .data a₀.dataOff := by
  obtain ⟨n, hn, hgrow⟩ := grows_emitData_all hlays h.data hsole
  rw [hn]
  exact (show (0 : Word) + n = n from BitVec.zero_add n).symm ▸ hgrow

variable (hfin : a₀.finish o = .ok a)

include hfin

/-- Before the text pass 2 has only data. -/
theorem Emission.start : TextAt a.dataOff {} { bld := b₃ } := by
  obtain ⟨-, hdata, -⟩ := finish_spec hfin hlays.litText_eq
  have hpool := (h.len_data hlays hsole).trans (puts_emitPool h.pool).grows
  rw [ofNat_mul] at hpool
  have hlen : b₃.len = b₂.len := by
    obtain ⟨ws, rfl⟩ := onlyWrites_emitWrites h.writes
    rfl
  have hb₃ : b₃.len .data = a.dataOff := by
    rw [hlen, hpool .data, hdata]
    exact BitVec.zero_add _
  rw [← hb₃]
  exact textAt_start ((congrFun hlen _).trans (hpool .text)) ((congrFun hlen _).trans (hpool .rtext))

/-- Behind the arena pass 2 is where pass 1 was at its end. -/
theorem Emission.textAt : TextAt a.dataOff a e₂ := by
  obtain ⟨htext, -, hsplit, hoff, -⟩ := finish_spec hfin hlays.litText_eq
  have hrun := (h.start hlays hsole hfin).run hlays h.text hsole
  obtain ⟨hout, hst, hslots⟩ := grows_emitSlots h.arena hrun.st
  rw [arenaSlots_bytes] at hslots
  have hat := hrun.grow hslots htext hsplit hoff e₂.gen e₂.pair
  rw [← hout, ← hst] at hat
  exact hat

/-- An image has the lengths that were planned. -/
theorem Emission.lengths : a.Lengths b := by
  have hat := h.textAt hlays hsole hfin
  have hend := (puts_emitPool h.cold).grows
  rw [ofNat_mul] at hend
  refine ⟨?_, ?_, ?_⟩
  · rw [hend .data, hat.data]
    exact BitVec.add_zero _
  · rw [hend .text, hat.text]
    rfl
  · have hpos := hat.pos
    have htext' := hat.text
    unfold Builder.textLen at hpos
    rw [hend .rtext]
    change e₂.bld.len .rtext + 0 = _
    split at htext'
    next hs =>
      rw [if_pos hs]
      bv_omega
    next hs =>
      rw [if_neg hs]
      bv_omega

end

end

end DmaCpu.Dmaasm
