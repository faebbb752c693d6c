-- SUMMARY: The words of an image as what they stand for: a number, or a place in a segment wherever that is loaded.
import DmaCpu.Dmaasm.Sizes
import DmaCpu.Dmx.Encode
import DmaCpu.Dmx.LoadSound

/-!
# Cells

A word of the image is a number, or an address in a segment that has a relocation of
its own. `Shows` keeps both together while the image is built, and `relocatedWord_cell`
says what a loaded image has in the place of the word.
-/
namespace DmaCpu.Dmx

/-- The word at an offset of segment `i`, with its relocations added. -/
def Image.relocatedWord (im : Image) (pl : Placement) (i off : Nat) : Option Word :=
  im.segments[i]?.bind fun s =>
    if off + 4 ≤ s.data.length then some (le32 s.data off + rebase (im.deltas pl) im.relocs i off) else none

end DmaCpu.Dmx

namespace DmaCpu.Dmaasm

open Emu Function

/-- What a word stands for. -/
inductive Cell where
  | num (v : Word)
  | ref (seg : SegId) (off : Word)
deriving DecidableEq

namespace Cell

/-- The word in the file. -/
def word (o : Options) : Cell → Word
  | num v => v
  | ref seg off => o.linkAddr seg + off

/-- The word after loading, with the segments at `base`. -/
def value (base : SegId → Word) : Cell → Word
  | num v => v
  | ref seg off => base seg + off

/-- The relocation of word `i` of segment `s`. -/
def reloc (s : SegId) (i : Nat) : Cell → Option Dmx.Reloc
  | num _ => none
  | ref seg _ => some ⟨s.idx, BitVec.ofNat 32 (4 * i), seg.idx⟩

end Cell

abbrev Cells := SegId → List Cell

def Cells.add (cs : Cells) (s : SegId) (c : Cell) : Cells := update cs s (cs s ++ [c])

/-- Nothing that is there changes. -/
def Cells.Below (cs cs' : Cells) : Prop := ∀ s, cs s <+: cs' s

theorem Cells.below_append (cs : Cells) (s : SegId) (new : List Cell) :
    cs.Below (update cs s (cs s ++ new)) := by
  intro t
  rw [update_apply]
  split
  case isTrue h => exact h ▸ List.prefix_append _ _
  case isFalse => exact List.prefix_rfl

theorem Cells.Below.trans {cs cs' cs'' : Cells} (h : cs.Below cs') (h' : cs'.Below cs'') : cs.Below cs'' :=
  fun s => (h s).trans (h' s)

/-- The relocations of a segment. -/
def relocsOf (s : SegId) (cs : List Cell) : List Dmx.Reloc := cs.zipIdx.filterMap fun x => x.1.reloc s x.2

/-- The image has these cells. -/
structure Builder.Shows (o : Options) (b : Builder) (cs : Cells) : Prop where
  words : ∀ s, b.words s = (cs s).map (Cell.word o)
  relocs : ∀ s, b.relocs.filter (fun r => r.seg == s.idx) = relocsOf s (cs s)

variable {s : SegId} {a : Asm} {e e' : EmitState} {entry : SegId × Word} {im : Dmx.Image}

section

variable {o : Options} {b b' b'' : Builder} {cs : Cells}

theorem relocsOf_append (cs : List Cell) (c : Cell) :
    relocsOf s (cs ++ [c]) = relocsOf s cs ++ (c.reloc s cs.length).toList := by
  rw [relocsOf, List.zipIdx_append, List.filterMap_append, Nat.zero_add]
  cases c <;> rfl

theorem idx_inj {t : SegId} (h : s.idx = t.idx) : s = t := by
  cases s <;> cases t <;> first | rfl | exact absurd h (by decide)

theorem shows_empty (o : Options) : Builder.Shows o {} fun _ => [] := ⟨fun _ => rfl, fun _ => rfl⟩

theorem Builder.Shows.len_eq (h : b.Shows o cs) (s : SegId) : b.len s = BitVec.ofNat 32 (4 * (cs s).length) := by
  rw [Builder.len, h.words, List.length_map]

theorem Builder.Shows.word (h : b.Shows o cs) (s : SegId) (v : Word) : (b.word s v).Shows o (cs.add s (.num v)) := by
  constructor
  · intro t
    by_cases ht : t = s
    · subst ht
      simp only [Builder.word, Cells.add, update_self, h.words, List.map_append]
      rfl
    · simp [Builder.word, Cells.add, update_of_ne ht, h.words]
  · intro t
    refine (h.relocs t).trans ?_
    by_cases ht : t = s
    · subst ht
      rw [Cells.add, update_self, relocsOf_append]
      exact (List.append_nil _).symm
    · rw [Cells.add, update_of_ne ht]

theorem Builder.Shows.wordRef (h : b.Shows o cs) (s seg : SegId) (off : Word) :
    (b.wordRef o s seg off).Shows o (cs.add s (.ref seg off)) := by
  constructor
  · intro t
    by_cases ht : t = s
    · subst ht
      simp only [Builder.wordRef, Builder.word, Cells.add, update_self, h.words, List.map_append]
      rfl
    · simp [Builder.wordRef, Builder.word, Cells.add, update_of_ne ht, h.words]
  · intro t
    simp only [Builder.wordRef, List.filter_append, h.relocs]
    by_cases ht : t = s
    · subst ht
      rw [Cells.add, update_self, relocsOf_append, h.len_eq]
      simp only [List.filter_cons, beq_self_eq_true, if_true, List.filter_nil]
      rfl
    · have hidx : (s.idx == t.idx) = false := beq_eq_false_iff_ne.mpr fun heq => ht (idx_inj heq).symm
      simp [hidx, Cells.add, update_of_ne ht]

/-- From `b` to `b'` cells are only added. -/
def Builder.Adds (o : Options) (b b' : Builder) : Prop :=
  ∀ cs, b.Shows o cs → ∃ cs', b'.Shows o cs' ∧ cs.Below cs'

theorem Builder.Adds.refl (b : Builder) : b.Adds o b := fun cs h => ⟨cs, h, fun _ => List.prefix_rfl⟩

theorem Builder.Adds.trans (h : b.Adds o b') (h' : b'.Adds o b'') : b.Adds o b'' := by
  intro cs hcs
  obtain ⟨cs', hcs', hbelow⟩ := h cs hcs
  obtain ⟨cs'', hcs'', hbelow'⟩ := h' cs' hcs'
  exact ⟨cs'', hcs'', hbelow.trans hbelow'⟩

theorem Builder.adds_word (b : Builder) (s : SegId) (v : Word) : b.Adds o (b.word s v) :=
  fun cs h => ⟨_, h.word s v, cs.below_append s _⟩

theorem Builder.adds_wordRef (b : Builder) (s seg : SegId) (off : Word) : b.Adds o (b.wordRef o s seg off) :=
  fun cs h => ⟨_, h.wordRef s seg off, cs.below_append s _⟩

theorem Builder.Puts.adds {n : Nat} (h : b.Puts o s n b') : b.Adds o b' := by
  induction h with
  | refl => exact .refl b
  | word _ v ih => exact ih.trans (Builder.adds_word _ s v)
  | wordRef _ ref off ih => exact ih.trans (Builder.adds_wordRef _ s ref off)

/-- A statement of the data. -/
theorem adds_emitData {l : Laid} (h : emitData o a b l = .ok b') : b.Adds o b' := by
  unfold emitData at h
  split at h
  · split at h
    · cases h
      exact .refl _
    · exact (Builder.puts_wordArgs h).adds
  · cases h
    exact (Builder.puts_foldl (fun b (_ : Nat) => b.puts_word 0) _ b).adds
  · cases h
    exact (Builder.puts_foldl (fun b (_ : String) => b.puts_word 0) _ b).adds
  · cases h
    exact .refl _

theorem adds_foldlM {α : Type} {f : Builder → α → Except AsmError Builder}
    (hf : ∀ (b b' : Builder) x, f b x = .ok b' → b.Adds o b') {xs : List α} (h : xs.foldlM f b = .ok b') :
    b.Adds o b' := by
  induction xs generalizing b with
  | nil =>
    cases h
    exact .refl _
  | cons x xs ih =>
    obtain ⟨b₁, hx, hrest⟩ := Fallible.foldlM_cons_eq_ok.mp h
    exact (hf _ _ x hx).trans (ih hrest)

/-- A statement of the text. -/
theorem Emits.adds {l : Laid} (h : Emits o a e l e') : e.bld.Adds o e'.bld := by
  cases h with
  | ramtext | nothing => exact .refl _
  | words _ _ h => exact (Builder.puts_wordArgs h).adds
  | compact => exact (Builder.puts_records ..).adds
  | classic => exact (Builder.puts_blocks ..).adds

theorem adds_emitText {ls : List Laid} (h : ls.foldlM (emitText o a) e = .ok e') :
    e.bld.Adds o e'.bld := by
  induction ls generalizing e with
  | nil =>
    cases h
    exact .refl _
  | cons l ls ih =>
    obtain ⟨e₁, hl, hrest⟩ := Fallible.foldlM_cons_eq_ok.mp h
    exact (emits_of_emitText hl).adds.trans (ih hrest)

theorem adds_emitSlot {neg : Bool} {i : Nat} (h : emitSlot o a e neg i = .ok e') :
    e.bld.Adds o e'.bld := by
  unfold emitSlot at h
  split at h
  all_goals
    dsimp only at h
    split at h
    · obtain ⟨_, -, rfl⟩ := Fallible.map_eq_ok.mp h
      exact (Builder.puts_records ..).adds
    · cases h
      exact (Builder.puts_blocks ..).adds

theorem adds_emitArena (h : emitArena o a e = .ok e') : e.bld.Adds o e'.bld := by
  unfold emitArena at h
  generalize arenaSlots o a.jpairs.length = xs at h
  induction xs generalizing e with
  | nil =>
    cases h
    exact .refl _
  | cons x xs ih =>
    obtain ⟨e₁, hx, hrest⟩ := Fallible.foldlM_cons_eq_ok.mp h
    exact (adds_emitSlot hx).trans (ih hrest)

theorem Builder.Shows.onlyWrites (h : b.Shows o cs) (hb : b.OnlyWrites b') : b'.Shows o cs := by
  obtain ⟨ws, rfl⟩ := hb
  exact ⟨h.words, h.relocs⟩

/-! ## The pool -/

/-- What the pool holds for a literal, if its symbol is defined. -/
def Asm.poolCell (a : Asm) (op : Operand) : Option Cell :=
  if op.isNum then some (.num op.num)
  else (a.syms op.sym).map fun sym => .ref (a.symLoc sym op.field).1 (a.symLoc sym op.field).2

theorem Builder.Shows.poolWord {op : Operand} (h : b.Shows o cs)
    (hword : poolWord o a b s op = .ok b') : ∃ c, a.poolCell op = some c ∧ b'.Shows o (cs.add s c) := by
  unfold Dmaasm.poolWord at hword
  unfold Asm.poolCell
  split at hword
  next hnum =>
    cases hword
    exact ⟨_, if_pos hnum, h.word s _⟩
  next hnum =>
    rw [if_neg hnum]
    split at hword
    · cases hword
    next sym hsym =>
      cases hword
      exact ⟨.ref (a.symLoc sym op.field).1 (a.symLoc sym op.field).2, by rw [hsym, Option.map_some], h.wordRef s _ _⟩

/-- One half of the pool, cell by cell. -/
theorem Builder.Shows.emitPool {cold : Bool} {ks : List String} (h : b.Shows o cs)
    (hpool : emitPool o a cold s b ks = .ok b') :
    ∃ new, b'.Shows o (update cs s (cs s ++ new)) ∧
      List.Forall₂ (fun k c => a.poolCell ((a.lits k).getD { kind := .lit }) = some c)
        (ks.filter fun k => (a.litText k).isSome == cold) new := by
  induction ks generalizing b cs with
  | nil =>
    cases hpool
    refine ⟨[], ?_, .nil⟩
    rw [List.append_nil, update_eq_self]
    exact h
  | cons k ks ih =>
    unfold Dmaasm.emitPool at hpool
    split at hpool
    next hk =>
      obtain ⟨b₁, hword, hrest⟩ := Fallible.bind_eq_ok.mp hpool
      obtain ⟨c, hc, h₁⟩ := h.poolWord hword
      obtain ⟨new, hshows, hall⟩ := ih h₁ hrest
      refine ⟨c :: new, ?_, ?_⟩
      · rw [Cells.add, update_self, update_idem, List.append_assoc] at hshows
        exact hshows
      · rw [List.filter_cons, hk, beq_self_eq_true]
        exact .cons hc hall
    next hk =>
      rw [List.filter_cons, beq_eq_false_iff_ne.mpr hk]
      exact ih h hpool

/-! ## Loading -/

/-- Where a segment is loaded. -/
def Options.base (o : Options) (pl : Dmx.Placement) (s : SegId) : Word := (pl s.idx.toNat).getD (o.linkAddr s)

theorem rebase_filter (delta : List Word) (rs : List Dmx.Reloc) (w : Nat) :
    Dmx.rebase delta rs s.idx.toNat w = Dmx.rebase delta (rs.filter fun r => r.seg == s.idx) s.idx.toNat w := by
  induction rs with
  | nil => rfl
  | cons r rs ih =>
    unfold Dmx.rebase at ih ⊢
    rw [List.map_cons, List.sum_cons, ih, List.filter_cons]
    cases hr : r.seg == s.idx with
    | true => rw [if_pos rfl, List.map_cons, List.sum_cons]
    | false =>
      have hne : r.seg.toNat ≠ s.idx.toNat := fun h => beq_eq_false_iff_ne.mp hr (BitVec.eq_of_toNat_eq h)
      rw [if_neg (fun h => hne h.1)]
      exact BitVec.zero_add _

/-- What the relocations of a stretch of cells add at word `j`. -/
theorem rebase_cells (delta : List Word) (s : SegId) (cs : List Cell) (n j : Nat) (hfit : 4 * (n + cs.length) ≤ 2 ^ 32) :
    Dmx.rebase delta ((cs.zipIdx n).filterMap fun x => x.1.reloc s x.2) s.idx.toNat (4 * j) =
      if n ≤ j then match cs[j - n]? with
        | some (.ref seg _) => delta.getD seg.idx.toNat 0
        | _ => 0
      else 0 := by
  induction cs generalizing n with
  | nil => simp [Dmx.rebase]
  | cons c cs ih =>
    rw [List.length_cons] at hfit
    have ih := ih (n + 1) (by omega)
    have hoff : (BitVec.ofNat 32 (4 * n)).toNat = 4 * n := Nat.mod_eq_of_lt (by omega)
    -- The first cell counts for word `n` alone.
    have hhead : Dmx.rebase delta (((c :: cs).zipIdx n).filterMap fun x => x.1.reloc s x.2) s.idx.toNat (4 * j) =
        (if n = j then match some c with
          | some (.ref seg _) => delta.getD seg.idx.toNat 0
          | _ => 0
        else 0) + Dmx.rebase delta ((cs.zipIdx (n + 1)).filterMap fun x => x.1.reloc s x.2) s.idx.toNat (4 * j) := by
      rw [List.zipIdx_cons]
      cases c with
      | num v =>
        rw [ite_self]
        exact (BitVec.zero_add _).symm
      | ref seg off =>
        simp only [List.filterMap_cons, Cell.reloc, Dmx.rebase, List.map_cons, List.sum_cons, hoff, true_and]
        refine congrArg (· + _) (if_congr ?_ rfl rfl)
        omega
    rw [hhead, ih]
    rcases Nat.lt_trichotomy n j with h | rfl | h
    · rw [if_neg (by omega), if_pos (by omega), if_pos (by omega), show j - n = (j - (n + 1)) + 1 by omega]
      exact BitVec.zero_add _
    · rw [if_pos rfl, if_neg (by omega), if_pos (Nat.le_refl _), Nat.sub_self]
      cases c <;> exact BitVec.add_zero _
    · rw [if_neg (by omega), if_neg (by omega), if_neg (by omega)]
      exact BitVec.add_zero _

/-- The segments that an image has. -/
def Asm.HasSeg (a : Asm) (s : SegId) : Prop := s = .rtext → a.split = true

theorem image_eq_ok (h : b.image o a entry = .ok im) :
    im.relocs = b.relocs ∧ ∀ s, a.HasSeg s →
      im.segments[s.idx.toNat]? = some ⟨o.linkAddr s, Dmx.leBytes (b.words s)⟩ := by
  unfold Builder.image at h
  dsimp only at h
  split at h
  · cases h
    refine ⟨rfl, fun s hs => ?_⟩
    cases s with
    | text => rfl
    | data => rfl
    | rtext => rw [hs rfl]; rfl
  · cases h

theorem le32_leBytes {ws : List Word} {j : Nat} {w : Word} (h : ws[j]? = some w) :
    Dmx.le32 (Dmx.leBytes ws) (4 * j) = w := by
  obtain ⟨hj, rfl⟩ := List.getElem?_eq_some_iff.mp h
  have hsplit : Dmx.leBytes ws =
      Dmx.leBytes (ws.take j) ++ Dmx.leBytes [ws[j]] ++ Dmx.leBytes (ws.drop (j + 1)) := by
    conv_lhs => rw [← List.take_append_drop j ws, List.drop_eq_getElem_cons hj]
    simp only [Dmx.leBytes, List.flatMap_append, List.flatMap_cons, List.flatMap_nil, List.append_nil,
      List.append_assoc]
  have hlen : (Dmx.leBytes (ws.take j)).length = 4 * j := by
    rw [Dmx.length_leBytes, List.length_take, Nat.min_eq_left (Nat.le_of_lt hj)]
  rw [hsplit, ← hlen]
  exact Dmx.le32_append _

/-- A loaded image has in the place of a word what its cell stands for. -/
theorem Builder.Shows.relocatedWord {j : Nat} {c : Cell}
    (h : b.Shows o cs) (him : b.image o a entry = .ok im) (hs : a.HasSeg s) (hfit : 4 * (cs s).length ≤ 2 ^ 32)
    (hj : (cs s)[j]? = some c) (hc : ∀ seg off, c = .ref seg off → a.HasSeg seg) (pl : Dmx.Placement) :
    im.relocatedWord pl s.idx.toNat (4 * j) = some (c.value (o.base pl)) := by
  obtain ⟨hrelocs, hsegs⟩ := image_eq_ok him
  have hword : (b.words s)[j]? = some (c.word o) := by
    rw [h.words, List.getElem?_map, hj, Option.map_some]
  have hlen : 4 * j + 4 ≤ (Dmx.leBytes (b.words s)).length := by
    have := (List.getElem?_eq_some_iff.mp hword).1
    rw [Dmx.length_leBytes]
    omega
  rw [Dmx.Image.relocatedWord, hsegs s hs, Option.bind_some, if_pos hlen, le32_leBytes hword, hrelocs, rebase_filter,
    h.relocs, relocsOf, rebase_cells _ _ _ _ _ (by omega), if_pos (Nat.zero_le _), Nat.sub_zero, hj]
  refine congrArg some ?_
  cases c with
  | num v => exact BitVec.add_zero _
  | ref seg off =>
    have hdelta : (im.deltas pl).getD seg.idx.toNat 0 = o.base pl seg - o.linkAddr seg := by
      rw [Dmx.Image.deltas, List.getD_eq_getElem?_getD, List.getElem?_map,
        Dmx.getElem?_places (hsegs seg (hc seg off rfl))]
      rfl
    simp only [hdelta, Cell.word, Cell.value]
    bv_omega

end

end DmaCpu.Dmaasm
