-- SUMMARY: Symbols and literals stand for what the source says, if names, places and keys do not run into each other.
import DmaCpu.Dmaasm.Places

/-!
# Symbols and literals

The name of a label should stand for the place of its statement, an offset is counted
from there, and a literal is a word of the pool that holds its value wherever the image
is loaded. `Clear` lists what a program has to keep away from for that.
-/
namespace DmaCpu.Dmx

/-- The bytes of the segments. -/
def Image.dataSize (im : Image) : Nat := (im.segments.map fun s => s.data.length).sum

end DmaCpu.Dmx

namespace DmaCpu.Dmaasm

open Emu Fallible

/-! ## What the source says -/

/-- What a literal stands for: a number, or the place of a symbol with an offset added. -/
def Asm.meaning (a : Asm) (op : Operand) : Option Cell :=
  if op.isNum then some (.num op.num)
  else (a.syms op.sym).map fun sym => .ref (a.symLoc sym 0).1 ((a.symLoc sym 0).2 + op.field)

/-- The offset that an operand adds to its symbol. -/
def Asm.fieldOff (o : Options) (a : Asm) (op : Operand) (sym : Symbol) : Word :=
  op.field + if op.blockField ∧ o.compact then (a.payloadDelta sym.off).getD 0 else 0

/-- Counting from the symbol does not lead over `.ramtext`. -/
def Asm.StaysIn (a : Asm) (sym : Symbol) (off : Word) : Prop :=
  sym.text = true → a.split = true → (a.splitOff ≤ sym.off + off ↔ a.splitOff ≤ sym.off)

/-- An operand of an instruction. -/
def IsOperand (o : Options) (ls : List Laid) (op : Operand) : Prop :=
  ∃ l ∈ ls, ∃ mnem s, Mnem.ofString l.stmt.mnem = some mnem ∧ s ∈ mnem.operands l.stmt.args ∧
    o.parseOperand l.stmt.line s = .ok op

/-- A label that an instruction goes to. -/
def IsTarget (ls : List Laid) (t : String) : Prop :=
  ∃ l ∈ ls, ∃ mnem, Mnem.ofString l.stmt.mnem = some mnem ∧ t ∈ mnem.targets l.stmt.args

/-- The place where pass 2 is behind `pre`: in the data, or in the text with `b` before it. -/
inductive StandsAt (o : Options) (a : Asm) (b : Builder) (pre : List Laid) : Bool → SegId × Word → Prop where
  | data {b' : Builder} : pre.foldlM (emitData o a) {} = .ok b' → StandsAt o a b pre true (.data, b'.len .data)
  | text {e : EmitState} : pre.foldlM (emitText o a) { bld := b } = .ok e →
      StandsAt o a b pre false (e.out, e.bld.len e.out)

/-- The word of the pool that an operand points to, wherever the image is loaded. -/
def PoolHolds (o : Options) (a : Asm) (im : Dmx.Image) (op : Operand) (c : Cell) : Prop :=
  ∃ seg off, a.litPtr op = .into seg off ∧
    ∀ pl, im.relocatedWord pl seg.idx.toNat off.toNat = some (c.value (o.base pl))

/-- Symbols and literals of an image stand for what the source says. -/
structure SymbolsRight (o : Options) (a : Asm) (ls : List Laid) (im : Dmx.Image) : Prop where
  /-- No name is defined twice. -/
  once : (labelNames ls ++ ownNames ls).Nodup
  /-- A label is the place of its own statement. -/
  labels {b₁ b₂ b₃ e₁ e₂ b pre l post a₁ a₂ p} : Emission o a ls b₁ b₂ b₃ e₁ e₂ b → PassOne o ls pre l post a₁ a₂ →
    l.stmt.label ≠ "" → StandsAt o a b₃ pre a₁.inData p → (a.syms l.stmt.label).map (a.symLoc · 0) = some p
  /-- An operand is counted from the place of its symbol. -/
  operands {op sym} : IsOperand o ls op → op.kind = .sym → a.syms op.sym = some sym →
    (op.blockField = true → sym.text = true) → ∀ line, a.resolve o line op =
      .ok (.into (a.symLoc sym 0).1 ((a.symLoc sym 0).2 + a.fieldOff o op sym))
  /-- A literal operand has a meaning and is in the pool, as is every target. -/
  defined {op} : IsOperand o ls op → op.kind = .lit → Interned o ls op ∧ (a.meaning op).isSome = true
  targets {t} : IsTarget ls t → Interned o ls (.litSym t)
  /-- The pool holds what its literals stand for. -/
  literals {op c} : Interned o ls op → a.meaning op = some c → PoolHolds o a im op c

/-- What a program has to keep away from. -/
structure Clear (o : Options) (a : Asm) (ls : List Laid) : Prop where
  /-- No label has a name that the assembler gives. -/
  names : ∀ name ∈ labelNames ls, name ∉ ownNames ls
  /-- Something stands between a label of the text and `.ramtext`. -/
  ramtext {pre l mid r post a₁ a₂} : PassOne o ls pre l (mid ++ r :: post) a₁ a₂ → l.stmt.label ≠ "" →
    a₁.inData = false → r.stmt.dir = "ramtext" → ∃ m ∈ mid, m.emitsText = true
  /-- No offset leads over `.ramtext`. -/
  operands {op sym} : IsOperand o ls op → op.kind = .sym → a.syms op.sym = some sym →
    (op.blockField = true → sym.text = true) → a.StaysIn sym (a.fieldOff o op sym)
  literals {op sym} : Interned o ls op → op.isNum = false → a.syms op.sym = some sym → a.StaysIn sym op.field
  /-- Literals with one key stand for one thing. -/
  keys {op op' c} : Interned o ls op → Interned o ls op' → litKey op = litKey op' → a.meaning op' = some c →
    (IsOperand o ls op ∧ op.kind = .lit) ∨ (a.meaning op).isSome = true → a.meaning op = some c

/-! ## Offsets from symbols -/

section

variable {o : Options} {a a₀ a₁ a₂ : Asm} {sym sym' : Symbol} {off off' : Word} {op op' : Operand} {c c' : Cell}

/-- An offset leads to a place of the same segment if and only if it stays there. -/
theorem Asm.StaysIn.symLoc (h : a.StaysIn sym off) :
    a.symLoc sym off = ((a.symLoc sym 0).1, (a.symLoc sym 0).2 + off) := by
  obtain ⟨text, x⟩ := sym
  unfold Asm.symLoc
  rw [show x + 0 = x from BitVec.add_zero x]
  cases text with
  | false => rfl
  | true =>
    cases hs : a.split with
    | false => rfl
    | true =>
      have hiff := h rfl hs
      by_cases hle : a.splitOff ≤ x
      · simp only [Bool.not_true, Bool.false_eq_true, if_false, true_and, if_pos (hiff.mpr hle), if_pos hle]
        congr 1
        bv_omega
      · simp [if_neg (fun h => hle (hiff.mp h)), if_neg hle]

theorem Asm.staysIn_of_symLoc (h : ((a.symLoc sym 0).1, (a.symLoc sym 0).2 + off) = a.symLoc sym' off') :
    a.StaysIn sym off := by
  intro htext hs
  obtain ⟨text, x⟩ := sym
  obtain ⟨text', x'⟩ := sym'
  obtain rfl : text = true := htext
  unfold Asm.symLoc at h
  rw [show x + 0 = x from BitVec.add_zero x, hs] at h
  by_cases hle : a.splitOff ≤ x
  · refine iff_of_true ?_ hle
    cases text' with
    | false => simp [hle] at h
    | true =>
      by_cases hle' : a.splitOff ≤ x' + off'
      · simp only [hle, hle', Bool.not_true, Bool.false_eq_true, if_false, and_self, if_true, Prod.mk.injEq,
          true_and] at h
        rw [show x + off = x' + off' by bv_omega]
        exact hle'
      · simp [hle, hle'] at h
  · refine iff_of_false (fun hle₁ => ?_) hle
    cases text' with
    | false => simp [hle] at h
    | true =>
      by_cases hle' : a.splitOff ≤ x' + off'
      · simp [hle, hle'] at h
      · simp only [hle, hle', Bool.not_true, Bool.false_eq_true, if_false, and_false, Prod.mk.injEq, true_and] at h
        exact hle' (h ▸ hle₁)

/-! ## Words of the pool -/

/-- A cell can be told from its values. -/
theorem Cell.eq_of_value (h : ∀ pl, c.value (o.base pl) = c'.value (o.base pl)) : c = c' := by
  -- Every segment can be loaded anywhere.
  have hbase (f : SegId → Word) : ∃ pl, o.base pl = f := by
    refine ⟨fun i => if i = 0 then some (f .text) else if i = 1 then some (f .data) else some (f .rtext), funext fun s => ?_⟩
    cases s <;> rfl
  have hval (f : SegId → Word) : c.value f = c'.value f := by
    obtain ⟨pl, rfl⟩ := hbase f
    exact h pl
  have h0 := hval fun _ => 0
  cases c with
  | num v =>
    cases c' with
    | num w => exact congrArg Cell.num h0
    | ref seg x =>
      have h1 := hval fun _ => 1
      simp only [Cell.value] at h0 h1
      bv_omega
  | ref seg x =>
    cases c' with
    | num w =>
      have h1 := hval fun _ => 1
      simp only [Cell.value] at h0 h1
      bv_omega
    | ref seg' y =>
      have hseg := hval fun s => if s = seg then 1 else 0
      simp only [Cell.value] at h0 hseg
      by_cases hs : seg' = seg
      · rw [hs, show x = y by bv_omega]
      · rw [if_pos trivial, if_neg hs] at hseg
        bv_omega

variable {im : Dmx.Image}

theorem PoolHolds.unique (h : PoolHolds o a im op c) (h' : PoolHolds o a im op c') : c = c' := by
  obtain ⟨seg, x, hptr, hword⟩ := h
  obtain ⟨seg', x', hptr', hword'⟩ := h'
  cases hptr.symm.trans hptr'
  exact Cell.eq_of_value fun pl => Option.some.inj ((hword pl).symm.trans (hword' pl))

theorem PoolHolds.of_key (h : PoolHolds o a im op c) (hkey : litKey op = litKey op') : PoolHolds o a im op' c := by
  obtain ⟨seg, x, hptr, hword⟩ := h
  refine ⟨seg, x, ?_, hword⟩
  rw [← hptr, Asm.litPtr, Asm.litPtr, hkey]

theorem Asm.hasSeg_symLoc (a : Asm) (sym : Symbol) (x : Word) : a.HasSeg (a.symLoc sym x).1 := by
  intro h
  unfold Asm.symLoc at h
  dsimp only at h
  split at h
  · cases h
  · split at h
    next hs => exact hs.1
    next => cases h

theorem Asm.hasSeg_poolCell (h : a.poolCell op = some c) : ∀ seg x, c = .ref seg x → a.HasSeg seg := by
  rintro seg x rfl
  unfold Asm.poolCell at h
  split at h
  · cases h
  · obtain ⟨sym, -, heq⟩ := Option.map_eq_some_iff.mp h
    cases heq
    exact a.hasSeg_symLoc sym _

/-- What the pool has for an operand is what it stands for, if the offset stays in the
    segment. -/
theorem Asm.meaning_eq_poolCell (h : op.isNum = false → ∀ sym, a.syms op.sym = some sym → a.StaysIn sym op.field) :
    a.meaning op = a.poolCell op := by
  unfold Asm.meaning Asm.poolCell
  cases hnum : op.isNum with
  | true => rfl
  | false =>
    cases hsym : a.syms op.sym with
    | none => rfl
    | some sym =>
      rw [if_neg Bool.false_ne_true, if_neg Bool.false_ne_true, Option.map_some, Option.map_some,
        (h hnum sym hsym).symLoc]

/-- An offset stays in the segment if the pool has its meaning for some operand. -/
theorem Asm.staysIn_of_meaning (hnum : op.isNum = false) (hsym : a.syms op.sym = some sym)
    (h : a.meaning op = a.poolCell op') : a.StaysIn sym op.field := by
  unfold Asm.meaning Asm.poolCell at h
  rw [hnum, hsym, if_neg Bool.false_ne_true] at h
  split at h
  · cases h
  · obtain ⟨sym', -, heq⟩ := Option.map_eq_some_iff.mp h.symm
    simp only [Cell.ref.injEq] at heq
    exact Asm.staysIn_of_symLoc (Prod.ext heq.1.symm heq.2.symm)

/-! ## Keys -/

theorem digitChar_inj : ∀ m < 16, ∀ n < 16, Nat.digitChar m = Nat.digitChar n → m = n := by
  decide

theorem hex8_inj {v w : Word} (h : hex8 v = hex8 w) : v = w := by
  have hdigit (i : Nat) (hi : i < 8) : v.toNat / 16 ^ (7 - i) % 16 = w.toNat / 16 ^ (7 - i) % 16 := by
    refine digitChar_inj _ (Nat.mod_lt _ (by decide)) _ (Nat.mod_lt _ (by decide)) ?_
    have hchar := congrArg (fun s : String => s.toList[i]?) h
    simpa only [hex8, String.toList_ofList, List.getElem?_map, List.getElem?_range hi, Option.map_some,
      Option.some.injEq] using hchar
  -- The digits are those of ever longer quotients.
  have hquot (i : Nat) (hi : i ≤ 8) : v.toNat / 16 ^ (8 - i) = w.toNat / 16 ^ (8 - i) := by
    induction i with
    | zero =>
      rw [show 16 ^ (8 - 0) = 2 ^ 32 from rfl, Nat.div_eq_of_lt v.isLt, Nat.div_eq_of_lt w.isLt]
    | succ i ih =>
      have hquot := ih (Nat.le_of_succ_le hi)
      rw [show 8 - i = 7 - i + 1 by omega, Nat.pow_succ, ← Nat.div_div_eq_div_mul, ← Nat.div_div_eq_div_mul] at hquot
      rw [show 8 - (i + 1) = 7 - i by omega, ← Nat.div_add_mod (v.toNat / 16 ^ (7 - i)) 16, hquot, hdigit i hi,
        Nat.div_add_mod]
  have hlast := hquot 8 (Nat.le_refl 8)
  rw [Nat.sub_self, Nat.pow_zero, Nat.div_one, Nat.div_one] at hlast
  exact BitVec.eq_of_toNat_eq hlast

/-- The key of a number is that of no symbol and of no other number. -/
theorem litKey_num (hnum : op'.isNum = true) (h : litKey op' = litKey op) : op.isNum = true ∧ op.num = op'.num := by
  have hlist := congrArg String.toList h
  cases hop : op.isNum with
  | true =>
    simp only [litKey, hnum, hop, if_true, String.toList_append] at hlist
    exact ⟨rfl, (hex8_inj (String.toList_injective (List.append_cancel_left hlist))).symm⟩
  | false =>
    simp only [litKey, hnum, hop, if_true, Bool.false_eq_true, if_false] at hlist
    split at hlist <;> simp [String.toList_append] at hlist

variable {ls : List Laid} {b₁ b₂ b₃ b : Builder} {e₁ e₂ : EmitState} {ss : List Stmt} {entry : SegId × Word}

/-- An image has the words of its builder. -/
theorem dataSize_image (h : b.image o a entry = .ok im) : im.dataSize =
    4 * ((b.words .text).length + (b.words .data).length + if a.split then (b.words .rtext).length else 0) := by
  unfold Builder.image at h
  dsimp only at h
  split at h
  · cases h
    unfold Dmx.Image.dataSize
    cases a.split <;> simp [Dmx.length_leBytes] <;> omega
  · cases h

/-! ## Programs -/

theorem mem_opsOf {acts : List Act} (h : .intern op ∈ acts) (gen : Nat) : op ∈ opsOf gen acts := by
  induction acts generalizing gen with
  | nil => cases h
  | cons x acts ih =>
    rcases List.mem_cons.mp h with rfl | hmem
    · exact List.mem_cons_self
    · cases x with
      | intern op' => exact List.mem_cons_of_mem _ (ih hmem gen)
      | label off => exact List.mem_cons_of_mem _ (ih hmem (gen + 1))
      | pair p => exact ih hmem gen

section

variable (hall : ({} : Asm).layStmts o ss = .ok (a₀, ls)) (hsole : ∀ l ∈ ls, l.stmt.Sole)
include hall hsole

/-- A literal points to a word of the pool, which holds what the first literal with its key
    stands for in pass 2. -/
theorem Emission.poolHolds (h : Emission o a ls b₁ b₂ b₃ e₁ e₂ b) (hfin : a₀.finish o = .ok a) (him : b.image o a entry = .ok im)
    (hfit : im.dataSize < 2 ^ 32) (hop : Interned o ls op) :
    ∃ op' c, litKey op' = litKey op ∧ (Interned o ls op' ∨ op'.isNum = true) ∧ a.poolCell op' = some c ∧
      PoolHolds o a im op c := by
  have hpool := pool_interned hall hsole
  have hpool' := hpool.finish hfin
  obtain ⟨cs, hcs, hcells⟩ := h.pool_cell (laysAll_of_layStmts hall).1 hsole hfin hpool
  obtain ⟨seg, j, c, hseg, hj, hc, hptr⟩ := hcells _ (hpool'.has op hop)
  obtain ⟨op', hop'⟩ := Option.isSome_iff_exists.mp ((hpool'.mem _).mp (hpool'.has op hop))
  rw [hop'] at hc
  obtain ⟨hkey, hown⟩ := hpool'.own _ op' hop'
  have hlen : 4 * (cs seg).length < 2 ^ 32 := by
    rw [dataSize_image him] at hfit
    have hwords : (b.words seg).length = (cs seg).length := by rw [hcs.words, List.length_map]
    cases seg with
    | text => omega
    | data => omega
    | rtext => exact absurd rfl hseg
  have hjlt := (List.getElem?_eq_some_iff.mp hj).1
  refine ⟨op', c, hkey, hown, hc, seg, BitVec.ofNat 32 (4 * j), hptr op rfl, fun pl => ?_⟩
  rw [BitVec.toNat_ofNat, Nat.mod_eq_of_lt (by omega)]
  exact hcs.relocatedWord him (fun heq => absurd heq hseg) (Nat.le_of_lt hlen) hj (a.hasSeg_poolCell hc) pl

/-- Pass 1 interns what an instruction needs. -/
theorem exists_does {l : Laid} (hl : l ∈ ls) {mnem : Mnem} (hmnem : Mnem.ofString l.stmt.mnem = some mnem) :
    ∃ (c : ScanCtx) (acts : List Act), c.Does mnem l.stmt.args acts ∧ c.opts = o ∧ c.line = l.stmt.line ∧
      ∀ op, .intern op ∈ acts → Interned o ls op := by
  obtain ⟨pre, post, rfl⟩ := List.append_of_mem hl
  obtain ⟨a₁, a₂, hpre, hhere, -⟩ := layStmts_cut hall
  have hp : PassOne o (pre ++ l :: post) pre l post a₁ a₂ := ⟨rfl, hpre, hhere⟩
  obtain ⟨shapes, acts, hscan, -⟩ := hp.lays.2.scanned (hsole l hl) hmnem
  refine ⟨_, acts, ScanCtx.does hscan, rfl, rfl, fun op hop => ⟨pre, l, post, a₁, a₂, hp, ?_⟩⟩
  rw [Asm.opsAt, hmnem]
  simp only [hscan]
  exact mem_opsOf hop _

theorem IsOperand.interned (h : IsOperand o ls op) (hlit : op.kind = .lit) : Interned o ls op := by
  obtain ⟨l, hl, mnem, s, hmnem, hs, hop⟩ := h
  obtain ⟨c, acts, hdoes, hopts, hline, hint⟩ := exists_does hall hsole hl hmnem
  exact hint op (hdoes.operands s hs op (hopts ▸ hline ▸ hop) hlit)

theorem IsTarget.interned {t : String} (h : IsTarget ls t) : Interned o ls (.litSym t) := by
  obtain ⟨l, hl, mnem, hmnem, ht⟩ := h
  obtain ⟨c, acts, hdoes, -, -, hint⟩ := exists_does hall hsole hl hmnem
  exact hint _ (hdoes.targets t ht)

end

/-- What an operand with a defined symbol resolves to. -/
theorem resolve_sym (hkind : op.kind = .sym) (hsym : a.syms op.sym = some sym)
    (hfield : op.blockField = true → sym.text = true) (line : Nat) :
    a.resolve o line op = .ok (.into (a.symLoc sym (a.fieldOff o op sym)).1 (a.symLoc sym (a.fieldOff o op sym)).2) := by
  have hno : ¬(op.blockField = true ∧ (!sym.text) = true) := fun h => by
    rw [hfield h.1] at h
    cases h.2
  simp only [Asm.resolve, hkind, hsym, if_neg hno]
  rfl

/-- The pool of a clear program has the meaning of every literal. -/
theorem Clear.pool (h : Clear o a ls) (hop : Interned o ls op) (hkey : litKey op' = litKey op)
    (hown : Interned o ls op' ∨ op'.isNum = true) (hc : a.poolCell op' = some c)
    (huse : (IsOperand o ls op ∧ op.kind = .lit) ∨ (a.meaning op).isSome = true) : a.meaning op = some c := by
  rcases hown with hop' | hnum
  · have hmeaning := Asm.meaning_eq_poolCell fun hnum sym hsym => h.literals hop' hnum hsym
    exact h.keys hop hop' hkey.symm (hmeaning.trans hc) huse
  · obtain ⟨hnum', heq⟩ := litKey_num hnum hkey
    rw [Asm.poolCell, if_pos hnum] at hc
    rw [Asm.meaning, if_pos hnum', heq, hc]

theorem Emission.start_unique {b₁' b₂' b₃' b' : Builder} {e₁' e₂' : EmitState} (h : Emission o a ls b₁ b₂ b₃ e₁ e₂ b)
    (h' : Emission o a ls b₁' b₂' b₃' e₁' e₂' b') : b₃ = b₃' := by
  cases h.data.symm.trans h'.data
  cases h.pool.symm.trans h'.pool
  cases h.writes.symm.trans h'.writes
  rfl

theorem clear_of_nodup (h : (labelNames ls ++ ownNames ls).Nodup) : ∀ name ∈ labelNames ls, name ∉ ownNames ls :=
  fun name hname hown => (List.nodup_append.mp h).2.2 name hname name hown rfl

section

variable (h : Emission o a ls b₁ b₂ b₃ e₁ e₂ b) (hall : ({} : Asm).layStmts o ss = .ok (a₀, ls))
  (hsole : ∀ l ∈ ls, l.stmt.Sole) (ho : o.compact = true → o.IsCompact) (hfin : a₀.finish o = .ok a)
  (him : b.image o a entry = .ok im) (hfit : im.dataSize < 2 ^ 32)

include hall hsole hfin in
/-- A label of the data is at its own statement. -/
theorem PassOne.data_place {pre post : List Laid} {l : Laid} (hp : PassOne o ls pre l post a₁ a₂) (hlabel : l.stmt.label ≠ "")
    (hown : l.stmt.label ∉ ownNames ls) (hdata : a₁.inData = true) {b' : Builder}
    (hb : pre.foldlM (emitData o a) {} = .ok b') :
    (a.syms l.stmt.label).map (a.symLoc · 0) = some (.data, b'.len .data) := by
  obtain ⟨n, hn, hgrow⟩ := grows_emitData_all hp.lays.1 hb fun x hx =>
    hsole x (hp.cut ▸ List.mem_append_left _ hx)
  rw [hp.label_kept hall hsole hfin hlabel hown, hdata, hgrow .data, hn]
  exact congrArg (fun x => some (SegId.data, x)) (BitVec.add_zero _)

include him hfit in
theorem fits_of_dataSize : b.Fits a.split := by
  rw [dataSize_image him] at hfit
  unfold Builder.Fits
  omega

include h hall hsole ho hfin him hfit

/-- A label of the text is at its own statement if and only if something stands between it
    and `.ramtext`. -/
theorem Emission.text_place_iff {pre post : List Laid} {l : Laid} (hp : PassOne o ls pre l post a₁ a₂)
    (hlabel : l.stmt.label ≠ "") (hown : l.stmt.label ∉ ownNames ls) (hdata : a₁.inData = false) {e : EmitState}
    (he : pre.foldlM (emitText o a) { bld := b₃ } = .ok e) :
    (a.syms l.stmt.label).map (a.symLoc · 0) = some (e.out, e.bld.len e.out) ↔
      ∀ mid r ls', post = mid ++ r :: ls' → r.stmt.dir = "ramtext" → ∃ m ∈ mid, m.emitsText = true := by
  rw [hp.label_kept hall hsole hfin hlabel hown, hdata, Option.map_some, Option.some.injEq]
  exact h.place_iff hall hsole ho hfin (fits_of_dataSize him hfit) hp hlabel he

/-- Symbols and literals of a clear program are right. -/
theorem symbolsRight_of_clear (hclear : Clear o a ls) : SymbolsRight o a ls im where
  once := by
    obtain ⟨-, hnodup, -⟩ := (laysAll_of_layStmts hall).1.labels
    refine List.nodup_append.mpr ⟨hnodup, ownNames_nodup ls, fun name hname own hown heq => ?_⟩
    exact hclear.names name hname (heq ▸ hown)
  labels := by
    intro b₁' b₂' b₃' e₁' e₂' b' pre l post a₁ a₂ p h' hp hlabel hstands
    obtain rfl := h.start_unique h'
    have hmem : l.stmt.label ∈ labelNames ls :=
      List.mem_filter.mpr ⟨List.mem_map_of_mem hp.mem, bne_iff_ne.mpr hlabel⟩
    have hown := hclear.names _ hmem
    generalize hin : a₁.inData = inData at hstands
    cases hstands with
    | data hb => exact hp.data_place hall hsole hfin hlabel hown hin hb
    | text he =>
      refine (h.text_place_iff hall hsole ho hfin him hfit hp hlabel hown hin he).mpr fun mid r ls' hcut hr => ?_
      subst hcut
      exact hclear.ramtext hp hlabel hin hr
  operands hop hkind hsym hfield line := by
    rw [resolve_sym hkind hsym hfield line, (hclear.operands hop hkind hsym hfield).symLoc]
  defined := by
    intro op hop hlit
    have hint := hop.interned hall hsole hlit
    obtain ⟨op', c, hkey, hown, hc, -⟩ := h.poolHolds hall hsole hfin him hfit hint
    refine ⟨hint, ?_⟩
    rw [hclear.pool hint hkey hown hc (.inl ⟨hop, hlit⟩)]
    rfl
  targets ht := ht.interned hall hsole
  literals := by
    intro op c hop hmeaning
    obtain ⟨op', c', hkey, hown, hc, hholds⟩ := h.poolHolds hall hsole hfin him hfit hop
    have hmeaning' := hclear.pool hop hkey hown hc (.inr (hmeaning ▸ rfl))
    cases hmeaning.symm.trans hmeaning'
    exact hholds

/-- A program whose symbols and literals are right is clear. -/
theorem SymbolsRight.clear (hright : SymbolsRight o a ls im) : Clear o a ls where
  names := clear_of_nodup hright.once
  ramtext := by
    intro pre l mid r post a₁ a₂ hp hlabel hdata hr
    have hmem : l.stmt.label ∈ labelNames ls :=
      List.mem_filter.mpr ⟨List.mem_map_of_mem hp.mem, bne_iff_ne.mpr hlabel⟩
    obtain ⟨e, he, -⟩ := foldlM_append_eq_ok.mp (hp.cut ▸ h.text)
    refine (h.text_place_iff hall hsole ho hfin him hfit hp hlabel (clear_of_nodup hright.once _ hmem) hdata he).mp ?_
      mid r post rfl hr
    exact hright.labels h hp hlabel (hdata ▸ .text he)
  operands := by
    intro op sym hop hkind hsym hfield
    have hresolve := (hright.operands hop hkind hsym hfield 0).symm.trans (resolve_sym hkind hsym hfield 0)
    simp only [Except.ok.injEq, Ptr.into.injEq] at hresolve
    exact Asm.staysIn_of_symLoc (Prod.ext hresolve.1 hresolve.2)
  literals := by
    intro op sym hop hnum hsym
    obtain ⟨op', c', -, -, hc, hholds⟩ := h.poolHolds hall hsole hfin him hfit hop
    have hmeaning : a.meaning op = some (.ref (a.symLoc sym 0).1 ((a.symLoc sym 0).2 + op.field)) := by
      rw [Asm.meaning, hnum, hsym]
      rfl
    have hcell : a.meaning op = a.poolCell op' := by
      rw [hmeaning, hc, (hright.literals hop hmeaning).unique hholds]
    exact Asm.staysIn_of_meaning hnum hsym hcell
  keys := by
    intro op op' c hop hop' hkey hmeaning huse
    have hsome : (a.meaning op).isSome = true := huse.elim (fun hlit => (hright.defined hlit.1 hlit.2).2) id
    obtain ⟨c', hc'⟩ := Option.isSome_iff_exists.mp hsome
    rw [hc', (hright.literals hop hc').unique ((hright.literals hop' hmeaning).of_key hkey.symm)]

end

end

/-! ## A check -/

/-- The literals that pass 1 interns, with its tables at `a`. -/
def Asm.allOps (o : Options) (a : Asm) : List Stmt → List Operand
  | [] => []
  | s :: ss =>
    a.opsAt o s ++ match a.layStmt o s with
      | .ok (a, _) => a.allOps o ss
      | .error _ => []

def operandsOf (o : Options) (ls : List Laid) : List Operand :=
  ls.flatMap fun l => match Mnem.ofString l.stmt.mnem with
    | none => []
    | some mnem => (mnem.operands l.stmt.args).filterMap fun s => (o.parseOperand l.stmt.line s).toOption

/-- Behind every label something goes into the text before the next `.ramtext`. -/
def spaced : List Laid → Bool
  | [] => true
  | l :: ls =>
    (l.stmt.label == "" || (ls.find? fun m => m.emitsText || m.stmt.dir == "ramtext").all Laid.emitsText) && spaced ls

instance (a : Asm) (sym : Symbol) (off : Word) : Decidable (a.StaysIn sym off) :=
  inferInstanceAs (Decidable (_ → _ → (_ ↔ _)))

/-- A program that passes is clear. -/
def clearCheck (o : Options) (a : Asm) (ls : List Laid) : Bool :=
  let ops := ({} : Asm).allOps o (ls.map Laid.stmt)
  (labelNames ls).all (fun name => !(ownNames ls).elem name) && spaced ls &&
    (operandsOf o ls).all (fun op => (a.syms op.sym).all fun sym => a.StaysIn sym (a.fieldOff o op sym)) &&
    ops.all (fun op => op.isNum || (a.syms op.sym).all fun sym => a.StaysIn sym op.field) &&
    ops.all fun op => ops.all fun op' => litKey op != litKey op' || (a.meaning op').isNone || a.meaning op == a.meaning op'

section

variable {o : Options} {a a₁ : Asm} {ls pre post : List Laid} {l : Laid} {op : Operand}

theorem mem_allOps (hpre : a.layStmts o (pre.map Laid.stmt) = .ok (a₁, pre)) (hop : op ∈ a₁.opsAt o l.stmt) :
    op ∈ a.allOps o ((pre ++ l :: post).map Laid.stmt) := by
  induction pre generalizing a with
  | nil =>
    cases hpre
    exact List.mem_append_left _ hop
  | cons l' pre ih =>
    obtain ⟨s, ss, a', hss, hstmt, hrest⟩ := layStmts_cons_eq_ok.mp hpre
    cases hss
    refine List.mem_append_right _ ?_
    simp only [hstmt]
    exact ih hrest

theorem Interned.mem_allOps (h : Interned o ls op) : op ∈ ({} : Asm).allOps o (ls.map Laid.stmt) := by
  obtain ⟨pre, l, post, a₁, a₂, hp, hop⟩ := h
  rw [hp.cut]
  exact Dmaasm.mem_allOps hp.before hop

theorem IsOperand.mem_operandsOf (h : IsOperand o ls op) : op ∈ operandsOf o ls := by
  obtain ⟨l, hl, mnem, s, hmnem, hs, hop⟩ := h
  refine List.mem_flatMap.mpr ⟨l, hl, ?_⟩
  simp only [hmnem]
  exact List.mem_filterMap.mpr ⟨s, hs, by rw [hop]; rfl⟩

theorem exists_emitsText {mid : List Laid} {r : Laid} (h : spaced (pre ++ l :: (mid ++ r :: post)) = true)
    (hlabel : l.stmt.label ≠ "") (hr : r.stmt.dir = "ramtext") (hstill : r.emitsText = false) :
    ∃ m ∈ mid, m.emitsText = true := by
  induction pre with
  | cons l' pre ih => exact ih (Bool.and_eq_true_iff.mp h).2
  | nil =>
    have hfind := (Bool.and_eq_true_iff.mp h).1
    rw [beq_eq_false_iff_ne.mpr hlabel] at hfind
    by_contra hnone
    have hmid : mid.find? (fun m => m.emitsText || m.stmt.dir == "ramtext") = none ∨
        ∃ m ∈ mid, m.emitsText = false ∧ mid.find? (fun m => m.emitsText || m.stmt.dir == "ramtext") = some m := by
      cases hm : mid.find? fun m => m.emitsText || m.stmt.dir == "ramtext" with
      | none => exact .inl rfl
      | some m =>
        have hmem := List.mem_of_find?_eq_some hm
        exact .inr ⟨m, hmem, Bool.eq_false_iff.mpr fun hyes => hnone ⟨m, hmem, hyes⟩, rfl⟩
    rw [List.find?_append] at hfind
    rcases hmid with hmid | ⟨m, -, hm, hmid⟩
    · rw [hmid, Option.none_or, List.find?_cons_of_pos (by simp [hr]), Option.all_some, hstill] at hfind
      cases hfind
    · rw [hmid, Option.some_or, Option.all_some, hm] at hfind
      cases hfind

theorem clear_of_check (hsole : ∀ l ∈ ls, l.stmt.Sole) (h : clearCheck o a ls = true) : Clear o a ls := by
  simp only [clearCheck, Bool.and_eq_true] at h
  obtain ⟨⟨⟨⟨hnames, hspaced⟩, hoperands⟩, hliterals⟩, hkeys⟩ := h
  refine ⟨?_, ?_, ?_, ?_, ?_⟩
  · intro name hname hown
    have := List.all_eq_true.mp hnames name hname
    rw [List.elem_eq_true_of_mem hown] at this
    cases this
  · intro pre l mid r post a₁ a₂ hp hlabel hdata hr
    refine exists_emitsText (hp.cut ▸ hspaced) hlabel hr ?_
    have hmnem := (hsole r (hp.cut ▸ by simp)).of_dir hr (by decide)
    rw [Laid.emitsText, hmnem, hr]
    rfl
  · intro op sym hop hkind hsym hfield
    have := List.all_eq_true.mp hoperands op hop.mem_operandsOf
    rw [hsym] at this
    exact of_decide_eq_true this
  · intro op sym hop hnum hsym
    have := List.all_eq_true.mp hliterals op hop.mem_allOps
    rw [hnum, hsym] at this
    exact of_decide_eq_true this
  · intro op op' c hop hop' hkey hmeaning huse
    have := List.all_eq_true.mp (List.all_eq_true.mp hkeys op hop.mem_allOps) op' hop'.mem_allOps
    rw [hmeaning, bne_eq_false_iff_eq.mpr hkey, Bool.false_or, Option.isNone_some, Bool.false_or, beq_iff_eq] at this
    exact this

end

/-! ## Assembled programs -/

/-- A program that is assembled, with the stages of pass 2. -/
theorem exists_emission_of_assemble {src : String} {o : Options} {r : AsmResult} {a : Asm} {ls : List Laid}
    (h : assemble src o = .ok r) (hlaid : laid src o = .ok (a, ls)) : ∃ b₁ b₂ b₃ e₁ e₂ b,
      Emission o.defaults a ls b₁ b₂ b₃ e₁ e₂ b ∧ ∃ entry, b.image o.defaults a entry = .ok r.image := by
  obtain ⟨a', ls', hlaid', hemit⟩ := assemble_eq_ok.mp h
  cases hlaid.symm.trans hlaid'
  obtain ⟨b, himage, hrest⟩ := bind_eq_ok.mp hemit
  obtain ⟨im, him, rfl⟩ := map_eq_ok.mp hrest
  obtain ⟨b₁, b₂, b₃, e₁, e₂, hem⟩ := exists_emission himage
  exact ⟨b₁, b₂, b₃, e₁, e₂, b, hem, _, him⟩

/-- Symbols and literals of a program that is assembled into less than 4 GiB are right if
    and only if it is clear. -/
theorem symbols_right_iff {src : String} {o : Options} {r : AsmResult} {a : Asm} {ls : List Laid}
    (h : assemble src o = .ok r) (hlaid : laid src o = .ok (a, ls)) (hfit : r.image.dataSize < 2 ^ 32) :
    SymbolsRight o.defaults a ls r.image ↔ Clear o.defaults a ls := by
  obtain ⟨ss, a₀, hall, hfin, hsole⟩ := exists_layStmts_of_laid hlaid
  obtain ⟨b₁, b₂, b₃, e₁, e₂, b, hem, entry, him⟩ := exists_emission_of_assemble h hlaid
  exact ⟨SymbolsRight.clear hem hall hsole isCompact_of_defaults hfin him hfit,
    symbolsRight_of_clear hem hall hsole isCompact_of_defaults hfin him hfit⟩

/-- The classic encoding with a second segment of text. -/
def splitText : Options := { variant := .rp2040, ramTextBase := 0x20040000 }

/-- Jumps and literals from one segment of text to the other. -/
def farProgram (tail : String) : String :=
  ".data\n.regs\n.text\n.entry main\nmain: move $far+16, r0\njump far\n" ++ tail ++
    ".ramtext\nnop\nfar: call main\nhalt\n"

theorem symbols_right_far : ∃ r a ls, assemble (farProgram "") splitText = .ok r ∧
    laid (farProgram "") splitText = .ok (a, ls) ∧ SymbolsRight splitText.defaults a ls r.image := by
  have h : okAnd (laid (farProgram "") splitText) (fun x => clearCheck splitText.defaults x.1 x.2 &&
      okAnd (emit splitText.defaults x.1 x.2) fun r => decide (r.image.dataSize < 2 ^ 32)) = true := by
    decide +kernel
  obtain ⟨⟨a, ls⟩, hlaid, hls⟩ := okAnd_eq_true.mp h
  obtain ⟨hcheck, hemit⟩ := Bool.and_eq_true_iff.mp hls
  obtain ⟨r, hr, hfit⟩ := okAnd_eq_true.mp hemit
  obtain ⟨_, _, _, _, hsole⟩ := exists_layStmts_of_laid hlaid
  have hasm := assemble_eq_ok.mpr ⟨a, ls, hlaid, hr⟩
  exact ⟨r, a, ls, hasm, hlaid, (symbols_right_iff hasm hlaid (of_decide_eq_true hfit)).mpr
    (clear_of_check hsole hcheck)⟩

/-- A label directly before `.ramtext` ends up behind it, and a label named like a
    generated one stands for the generated one. -/
theorem not_symbols_right_tail_or_generated :
    (∃ r a ls, assemble (farProgram "tail:\n") splitText = .ok r ∧
      laid (farProgram "tail:\n") splitText = .ok (a, ls) ∧ ¬SymbolsRight splitText.defaults a ls r.image ∧
      (a.syms "tail").map (a.symLoc · 0) = some (.rtext, 0)) ∧
    ∃ r a ls, assemble (farProgram "__L1: call main\nhalt\n") splitText = .ok r ∧
      laid (farProgram "__L1: call main\nhalt\n") splitText = .ok (a, ls) ∧
      ¬SymbolsRight splitText.defaults a ls r.image ∧ (a.syms "__L1").map (a.symLoc · 0) = some (.text, 64) := by
  constructor
  · have h : okAnd (laid (farProgram "tail:\n") splitText) (fun x =>
        okAnd (emit splitText.defaults x.1 x.2) (fun r => decide (r.image.dataSize < 2 ^ 32)) &&
        decide ((x.1.syms "tail").map (x.1.symLoc · 0) = some (.rtext, 0)) &&
        match x.2.drop 7 with
        | l :: r :: _ => l.stmt.label != "" && r.stmt.dir == "ramtext" &&
          okAnd (({} : Asm).layStmts splitText.defaults ((x.2.take 7).map Laid.stmt)) fun y => !y.1.inData
        | [] | [_] => false) = true := by
      decide +kernel
    obtain ⟨⟨a, ls⟩, hlaid, hls⟩ := okAnd_eq_true.mp h
    simp only [Bool.and_eq_true] at hls
    obtain ⟨⟨hemit, htail⟩, hcut⟩ := hls
    obtain ⟨r, hr, hfit⟩ := okAnd_eq_true.mp hemit
    have hasm := assemble_eq_ok.mpr ⟨a, ls, hlaid, hr⟩
    refine ⟨r, a, ls, hasm, hlaid, fun hright => ?_, of_decide_eq_true htail⟩
    obtain ⟨ss, a₀, hall, hfin, hsole⟩ := exists_layStmts_of_laid hlaid
    obtain ⟨b₁, b₂, b₃, e₁, e₂, b, hem, entry, him⟩ := exists_emission_of_assemble hasm hlaid
    have hclear := hright.clear hem hall hsole isCompact_of_defaults hfin him (of_decide_eq_true hfit)
    split at hcut
    next l ram post heq =>
      simp only [Bool.and_eq_true, bne_iff_ne, beq_iff_eq] at hcut
      obtain ⟨⟨hlabel, hram⟩, hdata⟩ := hcut
      have hls : ls = ls.take 7 ++ l :: ([] ++ ram :: post) := by rw [List.nil_append, ← heq, List.take_append_drop]
      obtain ⟨a₁, a₂, hpre, hl, -⟩ := layStmts_cut (hls ▸ hall)
      obtain ⟨⟨a₁', ls'⟩, hpre', hno⟩ := okAnd_eq_true.mp hdata
      cases hpre.symm.trans hpre'
      obtain ⟨m, hm, -⟩ := hclear.ramtext ⟨hls, hpre, hl⟩ hlabel (by simpa using hno) hram
      cases hm
    next => cases hcut
    next => cases hcut
  · have h : okAnd (laid (farProgram "__L1: call main\nhalt\n") splitText) (fun x =>
        okAnd (emit splitText.defaults x.1 x.2) (fun _ => true) &&
        decide ((x.1.syms "__L1").map (x.1.symLoc · 0) = some (.text, 64)) &&
        decide ("__L1" ∈ labelNames x.2 ∧ "__L1" ∈ ownNames x.2)) = true := by
      decide +kernel
    obtain ⟨⟨a, ls⟩, hlaid, hls⟩ := okAnd_eq_true.mp h
    simp only [Bool.and_eq_true] at hls
    obtain ⟨⟨hemit, hgen⟩, hnames⟩ := hls
    obtain ⟨r, hr, -⟩ := okAnd_eq_true.mp hemit
    obtain ⟨hlabel, hown⟩ := of_decide_eq_true hnames
    exact ⟨r, a, ls, assemble_eq_ok.mpr ⟨a, ls, hlaid, hr⟩, hlaid,
      fun hright => clear_of_nodup hright.once _ hlabel hown, of_decide_eq_true hgen⟩

end DmaCpu.Dmaasm
