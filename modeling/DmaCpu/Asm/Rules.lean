-- SUMMARY: Weakest preconditions for the assembly machine, one rule per instruction.
import DmaCpu.Asm.Text

/-!
# Rules

`M.wp Q pc m fl` says that with the sniffer in its normal set-up, and whatever the
accumulator holds, the machine gets from address `pc` with memory `m` and record
fields `fl` to a state in `Q`.
-/
namespace DmaCpu.Asm

open Function

/-! ## Words -/

section Words

variable {m : Cells} {a : Word}

theorem lane_of_aligned (h : Aligned a .word) : lane a = 0 := h

theorem wordOf_of_aligned (h : Aligned a .word) : wordOf a = a := by
  simp [wordOf, lane_of_aligned h]

theorem mask_word : mask .word = BitVec.allOnes 32 := rfl

@[simp] theorem extract_word (x : Word) : extract x 0 .word = x := by
  rw [extract, mask_word, BitVec.and_allOnes, BitVec.ushiftRight_zero]

@[simp] theorem splice_word (x v : Word) : splice x 0 .word v = v := by
  rw [splice, mask_word, BitVec.and_allOnes, BitVec.shiftLeft_zero,
    BitVec.shiftLeft_zero, BitVec.not_allOnes, BitVec.and_zero, BitVec.zero_or]

theorem Cells.load_word (h : Aligned a .word) : m.load a .word = some (m a) := by
  rw [Cells.load, if_pos h, wordOf_of_aligned h, lane_of_aligned h, extract_word]

theorem Cells.store_word (h : Aligned a .word) (v : Word) :
    m.store a .word v = some (update m a v) := by
  rw [Cells.store, if_pos h, wordOf_of_aligned h, lane_of_aligned h, splice_word]

end Words

/-- Memory `m'` is `m` except for the cells in `D`. -/
def Off (D : Set Word) (m m' : Cells) : Prop := ∀ a, a ∉ D → m' a = m a

namespace Off

variable {D E : Set Word} {m m' m'' : Cells} {a v : Word}

theorem refl (D : Set Word) (m : Cells) : Off D m m := fun _ _ => rfl

theorem trans (h : Off D m m') (h' : Off D m' m'') : Off D m m'' :=
  fun a ha => (h' a ha).trans (h a ha)

theorem mono (h : Off D m m') (hDE : D ⊆ E) : Off E m m' :=
  fun a ha => h a fun hD => ha (hDE hD)

theorem update (h : Off D m m') (ha : a ∈ D) (v : Word) : Off D m (update m' a v) := by
  intro b hb
  have hne : b ≠ a := fun heq => hb (heq ▸ ha)
  rw [update_of_ne hne]
  exact h b hb

end Off

/-! ## Weakest preconditions -/

variable {k : Nat} {p : Word} {s : State} {scr' : Scratch} {e : Entry}

namespace Machine

variable {M : Machine} {Q : State → Prop} {pc n d x y : Word} {m : Cells}
  {fl : Word → Field → Word} {scr : Scratch} {a b : Src}

/-- With memory `m` and fields `fl`, the machine gets from `pc` into `Q`. -/
def wp (M : Machine) (Q : State → Prop) (pc : Word) (m : Cells) (fl : Word → Field → Word) : Prop :=
  ∀ acc, M.Runs Q ⟨pc, m, acc, M.sniff, fl⟩

theorem off_spoilt (m : Cells) (j j' j'' : Word) :
    Off {scr.at1, scr.at2, scr.null} m (update (update
      (update m scr.at1 j) scr.at2 j') scr.null j'') :=
  (((Off.refl _ m).update (by simp) j).update (by simp) j').update (by simp) j''

/-- A step in which nothing depends on the accumulator. -/
theorem wp_of_exec (hcode : M.code pc = some e)
    (h : ∀ acc j, ∃ t, M.exec e j ⟨pc, m, acc, M.sniff, fl⟩ = some t ∧ M.Runs Q t) :
    M.wp Q pc m fl :=
  fun acc => .next (M.Runs Q) ⟨e, hcode, h acc⟩ fun _ ht => ht

theorem wp_bin {op : BinOp} (hcode : M.code pc = some ⟨.bin op a b (.cell d), n, scr⟩)
    (hop : op ≠ .and) (ha : operand m M.sniff [scr.null] a = some x)
    (hb : operand m M.sniff [scr.null] b = some y) (hd : Aligned d .word)
    (h : ∀ j, M.wp Q n (update (update m scr.null j) d (op.eval x y)) fl) :
    M.wp Q pc m fl := by
  refine wp_of_exec hcode fun acc j => ⟨_, ?_, h j.null j.acc⟩
  simp [exec, bin, if_neg hop, ha, hb, result, spoil, Cells.store_word hd, goto]

theorem wp_jump {t : Word} (hcode : M.code pc = some ⟨.jump t, n, scr⟩) (h : M.wp Q t m fl) :
    M.wp Q pc m fl :=
  wp_of_exec hcode fun acc _ => ⟨_, rfl, h acc⟩

theorem wp_jumpr (hcode : M.code pc = some ⟨.jumpr a, n, scr⟩)
    (ha : operand m M.sniff [] a = some x) (h : M.wp Q x m fl) : M.wp Q pc m fl := by
  refine wp_of_exec hcode fun acc _ => ⟨_, ?_, h acc⟩
  simp [exec, ha, goto]

theorem wp_branch {c : Test Src} {c' : Test Word} {yes no : Word} {v : Bool}
    (hcode : M.code pc = some ⟨.branch c yes no, n, scr⟩) (hzero : m scr.zero = 0)
    (hc : c.read (operand m M.sniff (if c.one then [scr.null] else [scr.at1, scr.at2, scr.null])) =
      some c')
    (hv : c'.eval = some v)
    (h : ∀ m', Off {scr.at1, scr.at2, scr.null} m m' → M.wp Q (if v then yes else no) m' fl) :
    M.wp Q pc m fl := by
  refine wp_of_exec hcode fun acc j =>
    ⟨_, ?_, h _ (off_spoilt m j.at1 j.at2 j.null) j.acc⟩
  simp [exec, hzero, branch, hc, hv, goto, spoilAll, spoil]

/-! ## Moves -/

theorem read_of_operand (ha : operand s.cells s.sniffCtrl [] a = some x) :
    read s .word 0 a = some x := by
  cases a with
  | cell p => simpa [operand, read] using ha
  | lit v =>
    rw [← ha, read, mask_word, BitVec.and_allOnes]
    rfl
  | sniffCtrl => simpa [operand, read] using ha
  | sniff => simp [operand] at ha
  | own => simp [operand] at ha
  | none => simp [operand] at ha

theorem operand_cell (h : Aligned p .word) : operand m M.sniff [] (.cell p) = some (m p) := by
  simp [operand, Cells.load_word h]

/-- A move of one word. -/
theorem exec_move {j : Junk} {dst : Dst} (he : e.ins = .move a dst {})
    (ha : read s .word 0 a = some x) :
    M.exec e j s = (M.write s .word 0 x dst).map (goto e.next) := by
  simp only [exec, he, moves]
  simp [ha]

theorem wp_move (hcode : M.code pc = some ⟨.move a (.cell d) {}, n, scr⟩)
    (ha : operand m M.sniff [] a = some x) (hd : Aligned d .word)
    (h : M.wp Q n (update m d x) fl) : M.wp Q pc m fl := by
  refine wp_of_exec hcode fun acc _ => ⟨_, ?_, h acc⟩
  rw [exec_move rfl (read_of_operand ha)]
  simp [write, Cells.store_word hd, goto]

/-- A move from the address in the record's READ field. -/
theorem wp_load (hcode : M.code pc = some ⟨.move .own (.cell d) {}, n, scr⟩)
    (hp : Aligned (fl pc .read) .word) (hd : Aligned d .word)
    (h : M.wp Q n (update m d (m (fl pc .read))) fl) : M.wp Q pc m fl := by
  refine wp_of_exec hcode fun acc _ => ⟨_, ?_, h acc⟩
  rw [exec_move (x := m (fl pc .read)) rfl (by simp [read, Cells.load_word hp])]
  simp [write, Cells.store_word hd, goto]

@[simp] theorem patch_self (r : Word) (f : Field) : patch fl r f x r f = x := by
  simp [patch]

/-- A move into a field of another record. -/
theorem wp_patch {r : Word} {f : Field} (hcode : M.code pc = some ⟨.move a (.field r f) {}, n, scr⟩)
    (ha : operand m M.sniff [] a = some x) (hr : M.opens r f = true)
    (h : M.wp Q n m (patch fl r f x)) : M.wp Q pc m fl := by
  refine wp_of_exec hcode fun acc _ => ⟨_, ?_, h acc⟩
  rw [exec_move rfl (read_of_operand ha)]
  simp [write, hr, goto]

/-- Memory after words `i` to `i + n` have been copied from `p` to `d`. -/
def copyWords (p d : Word) (i : Nat) : Nat → Cells → Cells
  | 0, m => m
  | n + 1, m => copyWords p d (i + 1) n
      (update m (d + BitVec.ofNat 32 (i * 4)) (m (p + BitVec.ofNat 32 (i * 4))))

/-- The addresses of words `i` to `i + n` from `d` on. -/
def wordsAt (d : Word) (i n : Nat) : Set Word :=
  {p | ∃ k, i ≤ k ∧ k < i + n ∧ p = d + BitVec.ofNat 32 (k * 4)}

theorem add_words_inj {i : Nat} (hi : i < 2 ^ 30) (hk : k < 2 ^ 30)
    (h : p + BitVec.ofNat 32 (i * 4) = p + BitVec.ofNat 32 (k * 4)) : i = k := by
  have heq := congrArg BitVec.toNat h
  simp only [BitVec.toNat_add, BitVec.toNat_ofNat] at heq
  omega

theorem off_copyWords {d : Word} (n i : Nat) (m : Cells) :
    Off (wordsAt d i n) m (copyWords p d i n m) := by
  induction n generalizing i m with
  | zero => exact Off.refl _ _
  | succ n ih =>
    have hrest := (ih (i + 1) (update m (d + BitVec.ofNat 32 (i * 4))
      (m (p + BitVec.ofNat 32 (i * 4))))).mono (E := wordsAt d i (n + 1)) (by
        rintro q ⟨k, hk, hk', rfl⟩
        exact ⟨k, by omega, by omega, rfl⟩)
    have hi : d + BitVec.ofNat 32 (i * 4) ∈ wordsAt d i (n + 1) := ⟨i, le_refl i, by omega, rfl⟩
    exact ((Off.refl _ m).update hi _).trans hrest

/-- Words copied to where none of them come from are there afterwards. -/
theorem copyWords_apply {d : Word} {n i : Nat} {m : Cells} (hn : i + n < 2 ^ 30)
    (hsrc : ∀ k, i ≤ k → k < i + n → p + BitVec.ofNat 32 (k * 4) ∉ wordsAt d i n) (hi : i ≤ k)
    (hk : k < i + n) :
    copyWords p d i n m (d + BitVec.ofNat 32 (k * 4)) = m (p + BitVec.ofNat 32 (k * 4)) := by
  induction n generalizing i m with
  | zero => omega
  | succ n ih =>
    have hlater : ∀ k, i + 1 ≤ k → k < i + 1 + n →
        p + BitVec.ofNat 32 (k * 4) ∉ wordsAt d (i + 1) n := by
      rintro k hk hk' ⟨j, hj, hj', heq⟩
      exact hsrc k (by omega) (by omega) ⟨j, by omega, by omega, heq⟩
    rcases Nat.eq_or_lt_of_le hi with rfl | hlt
    · have hfirst : d + BitVec.ofNat 32 (i * 4) ∉ wordsAt d (i + 1) n := by
        rintro ⟨j, hj, hj', heq⟩
        have := add_words_inj (by omega) (by omega) heq
        omega
      rw [copyWords, off_copyWords n (i + 1) _ _ hfirst, update_self]
    · have hne : p + BitVec.ofNat 32 (k * 4) ≠ d + BitVec.ofNat 32 (i * 4) := fun heq =>
        hsrc k hi hk ⟨i, le_refl i, by omega, heq⟩
      rw [copyWords, ih (by omega) hlater hlt (by omega), update_of_ne hne]

theorem aligned_add (h : Aligned p .word) (i : Nat) :
    Aligned (p + BitVec.ofNat 32 (i * 4)) .word := by
  simp only [Aligned, Width.bytes, BitVec.toNat_add, BitVec.toNat_ofNat] at h ⊢
  omega

theorem moves_words {i : Nat} (hp : Aligned (s.fields s.pc .read) .word)
    (hd : Aligned d .word) (n : Nat) : M.moves .own (.cell d) (.words k) i n s =
      some { s with cells := copyWords (s.fields s.pc .read) d i n s.cells } := by
  induction n generalizing s i with
  | zero => rfl
  | succ n ih =>
    have hread : read s .word (i * 4) .own =
        some (s.cells (s.fields s.pc .read + BitVec.ofNat 32 (i * 4))) :=
      Cells.load_word (aligned_add hp i)
    simp only [moves, Flags.words, if_true, Width.bytes, hread, Option.bind_some, write,
      Cells.store_word (aligned_add hd i), Option.map_some]
    exact ih hp

/-- A move of `k` words from the address in the record's READ field. -/
theorem wp_words (hcode : M.code pc = some ⟨.move .own (.cell d) (.words k), n, scr⟩)
    (hp : Aligned (fl pc .read) .word) (hd : Aligned d .word)
    (h : M.wp Q n (copyWords (fl pc .read) d 0 k m) fl) : M.wp Q pc m fl := by
  refine wp_of_exec hcode fun acc _ => ⟨_, ?_, h acc⟩
  simp only [exec]
  rw [moves_words hp hd]
  rfl

section

variable {c r : Word} (hpatch : M.code pc = some ⟨.move (.cell c) (.field r .read) {}, r, scr⟩)
include hpatch

/-- A move from the address in word `c`, which the instruction before it has put into
    the record. -/
theorem wp_indirect
    (hcode : M.code r = some ⟨.move .own (.cell d) {}, n, scr'⟩) (hc : Aligned c .word)
    (hp : Aligned (m c) .word) (hd : Aligned d .word)
    (h : ∀ fl, M.wp Q n (update m d (m (m c))) fl) : M.wp Q pc m fl := by
  have hopen : M.opens r .read = true := by simp [opens, hcode]
  refine wp_patch hpatch (operand_cell hc) hopen ?_
  refine wp_load hcode (by simpa using hp) hd ?_
  simpa using h _

/-- The same for `k` words. -/
theorem wp_indirect_words
    (hcode : M.code r = some ⟨.move .own (.cell d) (.words k), n, scr'⟩) (hc : Aligned c .word)
    (hp : Aligned (m c) .word) (hd : Aligned d .word)
    (h : ∀ fl, M.wp Q n (copyWords (m c) d 0 k m) fl) : M.wp Q pc m fl := by
  have hopen : M.opens r .read = true := by simp [opens, hcode]
  refine wp_patch hpatch (operand_cell hc) hopen ?_
  refine wp_words hcode (by simpa using hp) hd ?_
  simpa using h _

end

end Machine

end DmaCpu.Asm
