-- SUMMARY: The arena's linked free list is a spaced list of blocks, and `kalloc` and `kfree` act on it as such.
import DmaCpu.Lib.FreeList
import DmaCpu.Xv6.Arena
import Mathlib.Data.Nat.Bitwise

/-!
# The arena, described

The headers of the free blocks link them in address order. `Seg` says so of a stretch
of the list, `Heap` of the whole arena: free and live blocks tile it, and the header
of a live block has its size. A block is addressed by its header; its user has the
bytes behind the first 256.
-/
namespace DmaCpu.Xv6

open FreeList

/-- The address of a block's header. -/
def addr (b : Block) : Word := BitVec.ofNat 32 b.start

/-- What `kalloc` returns for a block. -/
def payload (b : Block) : Word := BitVec.ofNat 32 (b.start + 0x100)

/-! ## Sizes -/

theorem and_units {x : Nat} (h : x < 2 ^ 32) : x &&& 0xFFFFFF00 = 2 ^ 8 * (x / 2 ^ 8) := by
  have hmask (i : Nat) : Nat.testBit 0xFFFFFF00 i = (decide (8 ≤ i) && decide (i < 32)) := by
    rw [show 0xFFFFFF00 = 2 ^ 8 * (2 ^ 24 - 1) from rfl, Nat.testBit_two_pow_mul,
      Nat.testBit_two_pow_sub_one]
    by_cases h8 : 8 ≤ i
    · simp only [h8, decide_true, Bool.true_and, decide_eq_decide]
      omega
    · simp [h8]
  apply Nat.eq_of_testBit_eq
  intro i
  rw [Nat.testBit_and, Nat.testBit_two_pow_mul, Nat.testBit_div_two_pow, hmask]
  by_cases h8 : 8 ≤ i
  · by_cases h32 : i < 32
    · simp [h8, h32]
    · have hx : x.testBit i = false := Nat.testBit_lt_two_pow
        (Nat.lt_of_lt_of_le h (Nat.pow_le_pow_right (by decide) (Nat.not_lt.mp h32)))
      simp [h8, hx]
  · simp [h8]

/-- The rounded size of a request that does not overflow. -/
theorem toNat_blockSize {n : Word} (h : n.toNat ≤ 2 ^ 32 - 0x200) :
    (Kernel.blockSize n).toNat = 2 ^ 8 * ((n.toNat + 0xFF) / 2 ^ 8) + 0x100 := by
  have hadd : (n + 0xFF).toNat = n.toNat + 0xFF := by
    exact Nat.mod_eq_of_lt (show n.toNat + 0xFF < 2 ^ 32 by omega)
  have hand : ((n + 0xFF) &&& ~~~0xFF).toNat = 2 ^ 8 * ((n.toNat + 0xFF) / 2 ^ 8) := by
    rw [BitVec.toNat_and, hadd]
    exact and_units (by omega)
  rw [Kernel.blockSize, BitVec.toNat_add, hand]
  exact Nat.mod_eq_of_lt (show _ + 0x100 < 2 ^ 32 by omega)

/-! ## Stretches of the list -/

/-- From `h` the links lead through the headers of these blocks to `t`. -/
inductive Seg (hdr : Word → Khdr) : Word → List Block → Word → Prop where
  | nil (h : Word) : Seg hdr h [] h
  | cons {h t : Word} {b : Block} {l : List Block} (ne : h ≠ 0) (start : h.toNat = b.start)
      (size : (hdr h).size.toNat = b.size) (rest : Seg hdr (hdr h).next l t) : Seg hdr h (b :: l) t

section

variable {hdr hdr' : Word → Khdr} {h t u v : Word} {b c : Block} {l p s : List Block} {fuel : Nat}

theorem eq_addr (hb : h.toNat = b.start) : h = addr b := by
  rw [addr, ← hb, BitVec.ofNat_toNat, BitVec.setWidth_eq]

namespace Seg

theorem head (hs : Seg hdr h (b :: l) t) : h = addr b := by
  cases hs with
  | cons _ hstart _ _ => exact eq_addr hstart

theorem append (h₁ : Seg hdr h p u) (h₂ : Seg hdr u s t) : Seg hdr h (p ++ s) t := by
  induction h₁ with
  | nil => exact h₂
  | cons hne hstart hsize _ ih => exact .cons hne hstart hsize (ih h₂)

theorem split (hs : Seg hdr h (p ++ s) t) : ∃ u, Seg hdr h p u ∧ Seg hdr u s t := by
  induction p generalizing h with
  | nil => exact ⟨h, .nil h, hs⟩
  | cons b p ih =>
    cases hs with
    | cons hne hstart hsize hrest =>
      obtain ⟨u, h₁, h₂⟩ := ih hrest
      exact ⟨u, .cons hne hstart hsize h₁, h₂⟩

/-- A stretch depends only on the headers of its blocks. -/
theorem congr (hs : Seg hdr h l t) (hsame : ∀ b ∈ l, hdr' (addr b) = hdr (addr b)) :
    Seg hdr' h l t := by
  induction hs with
  | nil h => exact .nil h
  | @cons h t b l hne hstart hsize _ ih =>
    obtain ⟨hb, hl⟩ := List.forall_mem_cons.mp hsame
    have hhdr : hdr' h = hdr h := by rw [eq_addr hstart, hb]
    refine .cons hne hstart (by rw [hhdr]; exact hsize) ?_
    rw [hhdr]
    exact ih hl

end Seg

theorem toNat_addr (hb : b.start < 2 ^ 32) : (addr b).toNat = b.start := by
  rw [addr, BitVec.toNat_ofNat, Nat.mod_eq_of_lt hb]

theorem addr_inj (hb : b.start < 2 ^ 32) (hc : c.start < 2 ^ 32) (h : addr b = addr c) :
    b.start = c.start := by
  rw [← toNat_addr hb, ← toNat_addr hc, h]

/-- The link that leads to what follows the blocks `p`. -/
def lastLink (pp : Option Word) : List Block → Option Word
  | [] => pp
  | b :: p => lastLink (some (addr b)) p

theorem lastLink_append (pp : Option Word) :
    lastLink pp (p ++ [c]) = some (addr c) := by
  induction p generalizing pp with
  | nil => rfl
  | cons b p ih => exact ih _

/-! ## Walks -/

/-- `kalloc` finds the first block that is large enough, and the link to it. -/
theorem firstFit_walk {n : Word} (hs : Seg hdr h l 0) (hfuel : l.length < fuel)
    (pp : Option Word) :
    (∀ b ∈ l, b.size < n.toNat) ∧ Kernel.firstFit hdr n fuel pp h = .done none ∨
      ∃ p b s, l = p ++ b :: s ∧ (∀ c ∈ p, c.size < n.toNat) ∧ n.toNat ≤ b.size ∧
        Kernel.firstFit hdr n fuel pp h = .done (some (lastLink pp p, addr b)) := by
  induction l generalizing h fuel pp with
  | nil =>
    cases hs
    obtain ⟨fuel, rfl⟩ := Nat.exists_eq_succ_of_ne_zero (Nat.ne_zero_of_lt hfuel)
    exact .inl ⟨fun b hb => (nomatch hb), rfl⟩
  | cons b l ih =>
    cases hs with
    | cons hne hstart hsize hrest =>
      obtain ⟨fuel, rfl⟩ := Nat.exists_eq_succ_of_ne_zero (Nat.ne_zero_of_lt hfuel)
      have haddr := eq_addr hstart
      rw [Kernel.firstFit, if_neg hne]
      by_cases hle : n.toNat ≤ b.size
      · right
        refine ⟨[], b, l, rfl, fun c hc => (nomatch hc), hle, ?_⟩
        rw [if_pos (by rw [BitVec.le_def, hsize]; exact hle), haddr]
        rfl
      · rw [if_neg (by rw [BitVec.le_def, hsize]; exact hle)]
        rcases ih hrest (Nat.lt_of_succ_lt_succ hfuel) (some h) with ⟨hall, heq⟩ | hfound
        · exact .inl ⟨List.forall_mem_cons.mpr ⟨Nat.not_le.mp hle, hall⟩, heq⟩
        · obtain ⟨p, c, s, rfl, hp, hc, heq⟩ := hfound
          right
          refine ⟨b :: p, c, s, rfl, List.forall_mem_cons.mpr ⟨Nat.not_le.mp hle, hp⟩, hc, ?_⟩
          rw [heq, haddr]
          rfl

/-- `kfree` finds the last block before an address, and the block that follows. -/
theorem findSpot_walk {a : Word} (hs : Seg hdr h l 0) (hfuel : l.length < fuel)
    (prev : Option Word) :
    ∃ p s cur, l = p ++ s ∧ (∀ c ∈ p, c.start < a.toNat) ∧ (∀ c ∈ s.head?, a.toNat ≤ c.start) ∧
      Seg hdr h p cur ∧ Seg hdr cur s 0 ∧
      Kernel.findSpot hdr a fuel prev h = .done (lastLink prev p, cur) := by
  induction l generalizing h fuel prev with
  | nil =>
    cases hs
    obtain ⟨fuel, rfl⟩ := Nat.exists_eq_succ_of_ne_zero (Nat.ne_zero_of_lt hfuel)
    exact ⟨[], [], 0, rfl, fun c hc => (nomatch hc), fun c hc => (nomatch hc), .nil 0, .nil 0, rfl⟩
  | cons b l ih =>
    cases hs with
    | cons hne hstart hsize hrest =>
      obtain ⟨fuel, rfl⟩ := Nat.exists_eq_succ_of_ne_zero (Nat.ne_zero_of_lt hfuel)
      rw [Kernel.findSpot]
      by_cases hlt : b.start < a.toNat
      · rw [if_pos ⟨hne, by rw [BitVec.lt_def, hstart]; exact hlt⟩]
        obtain ⟨p, s, cur, rfl, hp, hs, hsp, hss, heq⟩ :=
          ih hrest (Nat.lt_of_succ_lt_succ hfuel) (some h)
        refine ⟨b :: p, s, cur, rfl, List.forall_mem_cons.mpr ⟨hlt, hp⟩, hs,
          .cons hne hstart hsize hsp, hss, ?_⟩
        rw [heq, eq_addr hstart]
        rfl
      · rw [if_neg (by rw [BitVec.lt_def, hstart]; exact fun h' => hlt h'.2)]
        refine ⟨[], b :: l, h, rfl, fun c hc => (nomatch hc), fun c hc => ?_, .nil h,
          .cons hne hstart hsize hrest, rfl⟩
        cases hc
        exact Nat.not_lt.mp hlt

end

/-! ## Links -/

section

variable {k : Kernel} {a u v : Word} {b c : Block} {l p s : List Block}

theorem setHdr_khdr (k : Kernel) (a : Word) (x : Khdr) : (k.setHdr a x).khdr a = x :=
  Function.update_self _ _ _

theorem setHdr_khdr_ne (x : Khdr) (h : u ≠ a) : (k.setHdr a x).khdr u = k.khdr u :=
  Function.update_of_ne h _ _

/-- Setting a link changes the header that holds it, at most. -/
theorem setLink_khdr_ne (h : ∀ c ∈ p, u ≠ addr c) (v : Word) :
    (k.setLink (lastLink none p) v).khdr u = k.khdr u := by
  rcases List.eq_nil_or_concat p with rfl | ⟨q, c, rfl⟩
  · rfl
  · rw [List.concat_eq_append] at h ⊢
    rw [lastLink_append]
    exact setHdr_khdr_ne _ (h c (List.mem_append_right _ List.mem_cons_self))

/-- The blocks of a list have different addresses. -/
def Distinct (l : List Block) : Prop := l.Pairwise fun a b => addr a ≠ addr b

/-- Setting the last link of a stretch makes it lead elsewhere. -/
theorem Seg.setLink (hs : Seg k.khdr k.kfreelist p u) (hd : Distinct p) (v : Word) :
    Seg (k.setLink (lastLink none p) v).khdr (k.setLink (lastLink none p) v).kfreelist p v := by
  rcases List.eq_nil_or_concat p with rfl | ⟨q, c, rfl⟩
  · exact .nil v
  · rw [List.concat_eq_append] at hs hd ⊢
    rw [lastLink_append]
    obtain ⟨w, hq, hc⟩ := hs.split
    cases hc with
    | cons hne hstart hsize hrest =>
      have hw := eq_addr hstart
      refine Seg.append (u := w) (hq.congr fun e he => setHdr_khdr_ne _ ?_) ?_
      · exact (List.pairwise_append.mp hd).2.2 e he c List.mem_cons_self
      · have hhdr : (k.setLink (some (addr c)) v).khdr w = { k.khdr w with next := v } := by
          rw [hw]
          exact setHdr_khdr ..
        refine .cons hne hstart (by rw [hhdr]; exact hsize) ?_
        rw [hhdr]
        exact .nil v

end

/-! ## The free list -/

/-- A block as the arena has them. -/
structure Placed (b : Block) : Prop where
  align : b.start % 4 = 0
  unit : 0x100 ≤ b.size
  stop : b.stop < 2 ^ 32

/-- The free list of the arena is this one. -/
structure FreeOk (k : Kernel) (l : List Block) : Prop where
  chain : Seg k.khdr k.kfreelist l 0
  spaced : Spaced l
  placed : ∀ b ∈ l, Placed b

/-- Only the free list and the headers of blocks differ. -/
def OnlyArena (k k' : Kernel) : Prop :=
  k' = { k with kfreelist := k'.kfreelist, khdr := k'.khdr }

section

variable {k k₁ k₂ k' : Kernel} {a : Word} {b c : Block} {l l' p s : List Block} {n : Word}

theorem OnlyArena.refl (k : Kernel) : OnlyArena k k := rfl

theorem OnlyArena.trans (h₁ : OnlyArena k k₁) (h₂ : OnlyArena k₁ k₂) : OnlyArena k k₂ := by
  unfold OnlyArena at *
  rw [h₂, h₁]

theorem onlyArena_setHdr (k : Kernel) (a : Word) (x : Khdr) : OnlyArena k (k.setHdr a x) := rfl

theorem onlyArena_setLink (k : Kernel) (pp : Option Word) (v : Word) :
    OnlyArena k (k.setLink pp v) := by
  cases pp <;> rfl

theorem Placed.start_lt (h : Placed b) : b.start < 2 ^ 32 := by
  have := h.stop
  simp only [Block.stop] at *
  omega

theorem Placed.pos (h : Placed b) : 0 < b.size := Nat.lt_of_lt_of_le (by decide) h.unit

/-- There are fewer blocks than units. -/
theorem length_le_of_spaced {lo hi : Nat} (hs : Spaced l) (hunit : ∀ b ∈ l, 0x100 ≤ b.size)
    (hlo : ∀ b ∈ l, lo ≤ b.start) (hhi : ∀ b ∈ l, b.stop < hi) (hlt : lo < hi) :
    lo + 0x100 * l.length < hi := by
  induction l generalizing lo with
  | nil => exact hlt
  | cons b l ih =>
    obtain ⟨_, hgap, hl⟩ := spaced_cons.mp hs
    obtain ⟨hb, hunit⟩ := List.forall_mem_cons.mp hunit
    obtain ⟨hbhi, hhi⟩ := List.forall_mem_cons.mp hhi
    have hrest := ih hl hunit (fun c hc => Nat.le_of_lt (hgap c hc)) hhi hbhi
    have hblo := hlo b List.mem_cons_self
    rw [List.length_cons]
    simp only [Block.stop] at hrest
    omega

theorem FreeOk.length_lt (h : FreeOk k l) : l.length < units := by
  have hlen : 0 + 0x100 * l.length < 2 ^ 32 :=
    length_le_of_spaced h.spaced (fun b hb => (h.placed b hb).unit) (fun b _ => Nat.zero_le _)
      (fun b hb => (h.placed b hb).stop) (by decide)
  simp only [units]
  omega

/-- The header of a free block has its size. -/
theorem FreeOk.size_eq (h : FreeOk k (p ++ b :: s)) : (k.khdr (addr b)).size.toNat = b.size := by
  obtain ⟨u, _, hbs⟩ := h.chain.split
  cases hbs with
  | cons _ hstart hsize _ => rwa [← eq_addr hstart]

theorem distinct_of_spaced (hs : Spaced l) (hp : ∀ b ∈ l, Placed b) : Distinct l := by
  refine hs.gaps.imp_of_mem fun {a b} ha hb hgap heq => ?_
  have hstart := addr_inj (hp a ha).start_lt (hp b hb).start_lt heq
  simp only [Block.stop] at hgap
  omega

/-! ## kalloc -/

/-- What taking block `b` from the free list `l` leaves of the arena. -/
structure Allocates (k : Kernel) (l : List Block) (b : Block) (l' : List Block) (k' : Kernel) :
    Prop where
  free : FreeOk k' l'
  placed : Placed b
  size : (k'.khdr (addr b)).size.toNat = b.size
  frame : ∀ a : Word, ¬Covers l a.toNat → k'.khdr a = k.khdr a
  only : OnlyArena k k'

theorem not_covers_addr (hb : b ∈ l) (hs : Spaced l) (hp : ∀ b ∈ l, Placed b)
    (ha : ¬Covers l a.toNat) : a ≠ addr b := by
  rintro rfl
  rw [toNat_addr (hp b hb).start_lt] at ha
  exact ha ⟨b, hb, has_start (hs.pos b hb)⟩

/-- A block taken whole. -/
theorem allocates_whole (hok : FreeOk k (p ++ b :: s)) :
    Allocates k (p ++ b :: s) b (p ++ s)
      (k.setLink (lastLink none p) (k.khdr (addr b)).next) := by
  have hd := distinct_of_spaced hok.spaced hok.placed
  obtain ⟨hdp, hdbs, hdcross⟩ := List.pairwise_append.mp hd
  obtain ⟨u, hp, hb⟩ := hok.chain.split
  cases hb with
  | @cons _ _ _ _ hne hstart hsize hrest =>
    have hu := eq_addr hstart
    subst hu
    have hkeep : ∀ c ∈ b :: s, (k.setLink (lastLink none p) (k.khdr (addr b)).next).khdr (addr c) =
        k.khdr (addr c) := fun c hc =>
      setLink_khdr_ne (fun e he => (hdcross e he c hc).symm) _
    obtain ⟨hkb, hks⟩ := List.forall_mem_cons.mp hkeep
    have hbmem : b ∈ p ++ b :: s := List.mem_append_right _ List.mem_cons_self
    have hsub : (p ++ s).Sublist (p ++ b :: s) := (List.sublist_cons_self b s).append_left p
    refine ⟨⟨(hp.setLink hdp _).append (hrest.congr hks), hok.spaced.sublist hsub, ?_⟩,
      hok.placed b hbmem, ?_, ?_, onlyArena_setLink _ _ _⟩
    · exact fun c hc => hok.placed c (hsub.subset hc)
    · rw [hkb]
      exact hsize
    · intro a ha
      exact setLink_khdr_ne (fun e he =>
        not_covers_addr (List.mem_append_left _ he) hok.spaced hok.placed ha) _

/-- A block cut in two: piece `c` is taken and piece `r` has its place in the list. -/
theorem allocates_piece {r : Block} (hok : FreeOk k (p ++ b :: s))
    (htakes : Takes (p ++ b :: s) c (p ++ r :: s)) (hc : Placed c) (hr : Placed r)
    (hlo : b.start ≤ r.start) (hn : n.toNat ≤ b.size) (hrsize : r.size = b.size - n.toNat)
    (hp : Seg k'.khdr k'.kfreelist p (addr r))
    (hhdr : k'.khdr (addr r) = ⟨(k.khdr (addr b)).size - n, (k.khdr (addr b)).next⟩)
    (hsize : (k'.khdr (addr c)).size.toNat = c.size)
    (hkeep : ∀ u, u ≠ addr c → u ≠ addr r → (∀ e ∈ p, u ≠ addr e) → k'.khdr u = k.khdr u)
    (honly : OnlyArena k k') : Allocates k (p ++ b :: s) c (p ++ r :: s) k' := by
  obtain ⟨hpp, hps⟩ := List.forall_mem_append.mp hok.placed
  have hplaced : ∀ e ∈ p ++ r :: s, Placed e :=
    List.forall_mem_append.mpr ⟨hpp, List.forall_mem_cons.mpr ⟨hr, (List.forall_mem_cons.mp hps).2⟩⟩
  obtain ⟨_, hdr, hdpr⟩ := List.pairwise_append.mp (distinct_of_spaced htakes.spaced hplaced)
  obtain ⟨u, _, hbs⟩ := hok.chain.split
  cases hbs with
  | cons hne hstart hbsize hrest =>
    have hu := eq_addr hstart
    subst hu
    refine ⟨⟨hp.append (.cons ?_ (toNat_addr hr.start_lt) ?_ ?_), htakes.spaced, hplaced⟩, hc, hsize,
      fun a ha => ?_, honly⟩
    · intro hzero
      have hrzero := toNat_addr hr.start_lt
      rw [hzero] at hrzero
      change 0 = r.start at hrzero
      exact hne (BitVec.eq_of_toNat_eq (show _ = 0 by omega))
    · rw [hhdr, BitVec.toNat_sub_of_le (by rw [BitVec.le_def, hbsize]; exact hn), hbsize, hrsize]
    · rw [hhdr]
      refine hrest.congr fun e he => hkeep _ ?_ ((List.pairwise_cons.mp hdr).1 e he).symm
        fun f hf => (hdpr f hf e (List.mem_cons_of_mem _ he)).symm
      have hmem : e ∈ p ++ r :: s := List.mem_append_right _ (List.mem_cons_of_mem _ he)
      intro heq
      have hstarts := addr_inj (hplaced e hmem).start_lt hc.start_lt heq
      have hpos := (hplaced e hmem).pos
      have hcpos := hc.pos
      rcases htakes.apart e hmem with h | h <;> simp only [Block.stop] at h <;> omega
    · -- the pieces are where the list was
      refine hkeep a ?_ ?_ fun e he =>
        not_covers_addr (List.mem_append_left _ he) hok.spaced hok.placed ha
      · rintro rfl
        rw [toNat_addr hc.start_lt, htakes.covers] at ha
        exact ha (.inl (has_start hc.pos))
      · rintro rfl
        rw [toNat_addr hr.start_lt, htakes.covers] at ha
        exact ha (.inr ⟨r, List.mem_append_right _ List.mem_cons_self, has_start hr.pos⟩)

/-- The front of a block taken. -/
theorem allocates_front (hok : FreeOk k (p ++ b :: s)) (hn : 0x100 ≤ n.toNat)
    (hmod : n.toNat % 4 = 0) (hle : n.toNat + 0x200 ≤ b.size)
    (h₁ : k₁ = k.setHdr (addr b + n) ⟨(k.khdr (addr b)).size - n, (k.khdr (addr b)).next⟩)
    (h₂ : k₂ = k₁.setHdr (addr b) { k₁.khdr (addr b) with size := n }) :
    Allocates k (p ++ b :: s) ⟨b.start, n.toNat⟩ (p ++ ⟨b.start + n.toNat, b.size - n.toNat⟩ :: s)
      (k₂.setLink (lastLink none p) (addr b + n)) := by
  have hb := hok.placed b (List.mem_append_right _ List.mem_cons_self)
  have hbstop := hb.stop
  simp only [Block.stop] at hbstop
  have htakes := (takes_split (n := n.toNat) (hok.spaced.sublist (List.sublist_append_right _ _))
    (by omega) (by omega)).append hok.spaced
  generalize hr : (⟨b.start + n.toNat, b.size - n.toNat⟩ : Block) = r at htakes ⊢
  have hrstart : r.start = b.start + n.toNat := by rw [← hr]
  have hrsize : r.size = b.size - n.toNat := by rw [← hr]
  have hrp : Placed r := ⟨by have := hb.align; omega, by omega, by simp only [Block.stop]; omega⟩
  have hraddr : addr b + n = addr r := by
    apply BitVec.eq_of_toNat_eq
    rw [BitVec.toNat_add, toNat_addr hb.start_lt, toNat_addr (by omega), hrstart,
      Nat.mod_eq_of_lt (by omega)]
  have hrb : addr r ≠ addr b := by
    intro heq
    have := addr_inj hrp.start_lt hb.start_lt heq
    omega
  rw [hraddr] at h₁ ⊢
  -- the headers that change are those of `b`, of `r` and of the last block of `p`
  obtain ⟨hdp, _, hdpb⟩ := List.pairwise_append.mp (distinct_of_spaced hok.spaced hok.placed)
  have hpr : ∀ e ∈ p, addr e ≠ addr r := by
    intro e he heq
    have hep := hok.placed e (List.mem_append_left _ he)
    have hgap := (List.pairwise_append.mp hok.spaced.gaps).2.2 e he b List.mem_cons_self
    have := addr_inj hep.start_lt hrp.start_lt heq
    simp only [Block.stop] at hgap
    omega
  have hkeep : ∀ u, u ≠ addr b → u ≠ addr r → k₂.khdr u = k.khdr u := by
    intro u hub hur
    rw [h₂, setHdr_khdr_ne _ hub, h₁, setHdr_khdr_ne _ hur]
  obtain ⟨u, hp, hbs⟩ := hok.chain.split
  cases hbs.head
  have hlist : k₂.kfreelist = k.kfreelist := by rw [h₂, h₁]; rfl
  have hp₂ : Seg k₂.khdr k₂.kfreelist p (addr b) := hlist ▸ hp.congr fun e he =>
    hkeep _ (hdpb e he b List.mem_cons_self) (hpr e he)
  refine allocates_piece (n := n) hok htakes ⟨hb.align, hn, ?_⟩ hrp (by omega) (by omega) hrsize
    (hp₂.setLink hdp _) ?_ ?_ (fun u hub hur hup => ?_) ?_
  · show b.start + n.toNat < _
    omega
  · rw [setLink_khdr_ne (fun e he => (hpr e he).symm), h₂, setHdr_khdr_ne _ hrb, h₁, setHdr_khdr]
  · show ((k₂.setLink (lastLink none p) (addr r)).khdr (addr b)).size.toNat = n.toNat
    rw [setLink_khdr_ne (fun e he => (hdpb e he b List.mem_cons_self).symm), h₂, setHdr_khdr]
  · rw [setLink_khdr_ne hup, hkeep u hub hur]
  · rw [h₂, h₁]
    exact ((onlyArena_setHdr k _ _).trans (onlyArena_setHdr _ _ _)).trans (onlyArena_setLink _ _ _)

theorem addr_add : addr b + 0x100 = payload b := by
  rw [payload, BitVec.ofNat_add]
  rfl

/-- `kalloc` takes the first fit, or fails and changes nothing. -/
theorem kalloc_eq (hinit : k.kheapInit = true) (hok : FreeOk k l)
    (hn : n.toNat ≤ 2 ^ 32 - 0x200) :
    firstFit 0x200 (Kernel.blockSize n).toNat l = none ∧ k.kalloc n = (k, 0) ∨
      ∃ b l' k', firstFit 0x200 (Kernel.blockSize n).toNat l = some (b, l') ∧
        k.kalloc n = (k', payload b) ∧ Allocates k l b l' k' := by
  have hsize := toNat_blockSize hn
  have hstart : k.kheapStart = k := if_pos hinit
  unfold Kernel.kalloc
  simp only [hstart]
  generalize Kernel.blockSize n = size at hsize ⊢
  rcases firstFit_walk (n := size) hok.chain hok.length_lt none with ⟨hall, heq⟩ | hfound
  · rw [heq]
    exact .inl ⟨firstFit_eq_none hall, rfl⟩
  · obtain ⟨p, b, s, rfl, hp, hb, heq⟩ := hfound
    rw [heq, firstFit_append hp hb]
    have hhdr := hok.size_eq
    have hsub : ((k.khdr (addr b)).size - size).toNat = b.size - size.toNat := by
      rw [BitVec.toNat_sub_of_le (by rw [BitVec.le_def, hhdr]; exact hb), hhdr]
    right
    by_cases hslack : 0x200 ≤ b.size - size.toNat
    · have hslack' : (0x200 : Word) ≤ (k.khdr (addr b)).size - size := by
        rw [BitVec.le_def, hsub]
        exact hslack
      simp only [if_pos hslack, if_pos hslack']
      refine ⟨_, _, _, rfl, ?_, allocates_front hok (by omega) (by omega) (by omega) rfl rfl⟩
      rw [addr_add]
      rfl
    · have hslack' : ¬(0x200 : Word) ≤ (k.khdr (addr b)).size - size := by
        rw [BitVec.le_def, hsub]
        exact hslack
      simp only [if_neg hslack, if_neg hslack']
      exact ⟨_, _, _, rfl, by rw [addr_add], allocates_whole hok⟩

end

/-! ## kfree -/

/-- The block at `h` swallows the block at `cur`, if that follows it and touches it. -/
def Kernel.merge (k : Kernel) (h cur : Word) : Kernel :=
  if cur ≠ 0 ∧ h + (k.khdr h).size = cur then
    k.setHdr h ⟨(k.khdr h).size + (k.khdr cur).size, (k.khdr cur).next⟩
  else k

section

variable {k k₁ k₂ k' : Kernel} {a cur : Word} {b c : Block} {l l' p q s : List Block}

theorem onlyArena_merge (k : Kernel) (h cur : Word) : OnlyArena k (k.merge h cur) := by
  unfold Kernel.merge
  split
  · exact onlyArena_setHdr ..
  · exact .refl k

theorem merge_khdr_ne {h u : Word} (hu : u ≠ h) : (k.merge h cur).khdr u = k.khdr u := by
  unfold Kernel.merge
  split
  · exact setHdr_khdr_ne _ hu
  · rfl

/-- A block is joined with what follows it in the list. -/
theorem Seg.merge (hs : Seg k.khdr k.kfreelist (p ++ b :: s) 0) (hd : Distinct (p ++ b :: s))
    (hb : Placed b) (hstop : ∀ c ∈ s, c.stop < 2 ^ 32) (hcur : (k.khdr (addr b)).next = cur) :
    Seg (k.merge (addr b) cur).khdr (k.merge (addr b) cur).kfreelist (p ++ join b s) 0 := by
  obtain ⟨u, hp, hbs⟩ := hs.split
  cases hbs with
  | cons hne hstart hsize hrest =>
    have hu := eq_addr hstart
    subst hu
    rw [hcur] at hrest
    cases s with
    | nil =>
      cases hrest
      exact hs
    | cons c s =>
      cases hrest with
      | cons hne' hstart' hsize' hrest =>
        have hbstop := hb.stop
        have hcstop := hstop c List.mem_cons_self
        have htouch : addr b + (k.khdr (addr b)).size = cur ↔ b.stop = c.start := by
          have hsum : (addr b + (k.khdr (addr b)).size).toNat = b.stop := by
            rw [BitVec.toNat_add, hstart, hsize]
            exact Nat.mod_eq_of_lt hbstop
          rw [← hsum, ← hstart']
          exact ⟨congrArg BitVec.toNat, BitVec.eq_of_toNat_eq⟩
        rw [Kernel.merge, join]
        by_cases h : b.stop = c.start
        · rw [if_pos ⟨hne', htouch.mpr h⟩, if_pos h]
          obtain ⟨_, hdb, hdpb⟩ := List.pairwise_append.mp hd
          refine Seg.append (hp.congr fun e he => setHdr_khdr_ne _ ?_) (.cons hne hstart ?_ ?_)
          · exact hdpb e he b List.mem_cons_self
          · rw [setHdr_khdr, BitVec.toNat_add, hsize, hsize']
            simp only [Block.stop] at h hcstop
            exact Nat.mod_eq_of_lt (by omega)
          · rw [setHdr_khdr]
            refine hrest.congr fun e he => setHdr_khdr_ne _ ?_
            exact ((List.pairwise_cons.mp hdb).1 e (List.mem_cons_of_mem _ he)).symm
        · rw [if_neg fun h' => h (htouch.mp h'.2), if_neg h]
          exact hs

/-- In address order. -/
def Ordered (l : List Block) : Prop := l.Pairwise fun a b => a.start < b.start

theorem Ordered.distinct (h : Ordered l) (hlt : ∀ b ∈ l, b.start < 2 ^ 32) : Distinct l :=
  h.imp_of_mem fun ha hb hab heq => Nat.ne_of_lt hab (addr_inj (hlt _ ha) (hlt _ hb) heq)

theorem Ordered.join (h : Ordered (p ++ b :: s)) : Ordered (p ++ join b s) := by
  cases s with
  | nil => exact h
  | cons c s =>
    rw [FreeList.join]
    split
    · obtain ⟨hp, hbs, hcross⟩ := List.pairwise_append.mp h
      obtain ⟨hb, hcs⟩ := List.pairwise_cons.mp hbs
      refine List.pairwise_append.mpr ⟨hp, List.pairwise_cons.mpr ⟨fun e he => ?_, ?_⟩, ?_⟩
      · exact hb e (List.mem_cons_of_mem _ he)
      · exact (List.pairwise_cons.mp hcs).2
      · intro a ha e he
        rcases List.mem_cons.mp he with rfl | he
        · exact hcross a ha b List.mem_cons_self
        · exact hcross a ha e (List.mem_cons_of_mem _ (List.mem_cons_of_mem _ he))
    · exact h

theorem Placed.merge {a c : Block} (ha : Placed a) (hc : Placed c) (h : a.stop = c.start) :
    Placed ⟨a.start, a.size + c.size⟩ := by
  refine ⟨ha.align, Nat.le_trans ha.unit (Nat.le_add_right _ _), ?_⟩
  have := hc.stop
  simp only [Block.stop] at *
  omega

/-- The released block takes its place in the order. -/
theorem ordered_insert (hs : Spaced (p ++ s)) (hb : 0 < b.size) (hapart : ∀ c ∈ p ++ s, c.Apart b)
    (hp : ∀ c ∈ p, c.start < b.start) (hhead : ∀ c ∈ s.head?, b.start ≤ c.start) :
    Ordered (p ++ b :: s) := by
  have hord : Ordered (p ++ s) := hs.gaps.imp fun h => Nat.lt_of_le_of_lt (Nat.le_add_right _ _) h
  obtain ⟨hpp, hss, hcross⟩ := List.pairwise_append.mp hord
  refine List.pairwise_append.mpr ⟨hpp, List.pairwise_cons.mpr ⟨?_, hss⟩, ?_⟩
  · cases s with
    | nil => exact fun c hc => (nomatch hc)
    | cons c s =>
      have hc : c ∈ p ++ c :: s := List.mem_append_right _ List.mem_cons_self
      have hlt : b.start < c.start := by
        have hle := hhead c rfl
        have hpos := hs.pos c hc
        rcases hapart c hc with h | h <;> simp only [Block.stop] at h <;> omega
      refine List.forall_mem_cons.mpr ⟨hlt, fun e he => ?_⟩
      exact Nat.lt_trans hlt ((List.pairwise_cons.mp hss).1 e he)
  · intro a ha e he
    rcases List.mem_cons.mp he with rfl | he
    · exact hp a ha
    · exact hcross a ha e he

/-- The block goes between the stretches `p` and `s`. -/
theorem Seg.insert (hp : Seg k.khdr k.kfreelist p cur) (hs : Seg k.khdr cur s 0)
    (hd : Distinct (p ++ b :: s)) (hb : Placed b) (hne : addr b ≠ 0)
    (hsize : (k.khdr (addr b)).size.toNat = b.size)
    (h₁ : k₁ = k.setHdr (addr b) { k.khdr (addr b) with next := cur })
    (h₂ : k₂ = k₁.setLink (lastLink none p) (addr b)) :
    Seg k₂.khdr k₂.kfreelist (p ++ b :: s) 0 ∧ (k₂.khdr (addr b)).next = cur := by
  obtain ⟨hdp, hdb, hdpb⟩ := List.pairwise_append.mp hd
  have hp₁ : Seg k₁.khdr k₁.kfreelist p cur := by
    rw [h₁]
    exact hp.congr fun c hc => setHdr_khdr_ne _ (hdpb c hc b List.mem_cons_self)
  have hkeep : ∀ c ∈ b :: s, k₂.khdr (addr c) = k₁.khdr (addr c) := by
    intro c hc
    rw [h₂]
    exact setLink_khdr_ne (fun e he => (hdpb e he c hc).symm) _
  obtain ⟨hkb, hks⟩ := List.forall_mem_cons.mp hkeep
  have hhdr : k₂.khdr (addr b) = { k.khdr (addr b) with next := cur } := by
    rw [hkb, h₁]
    exact setHdr_khdr ..
  constructor
  · have hp₂ : Seg k₂.khdr k₂.kfreelist p (addr b) := by
      rw [h₂]
      exact hp₁.setLink hdp _
    refine hp₂.append (.cons hne (toNat_addr hb.start_lt) (by rw [hhdr]; exact hsize) ?_)
    rw [hhdr]
    refine hs.congr fun c hc => ?_
    rw [hks c hc, h₁]
    exact setHdr_khdr_ne _ ((List.pairwise_cons.mp hdb).1 c hc).symm
  · rw [hhdr]

/-- What giving block `b` back to the free list `l` leaves of the arena. -/
structure Frees (k : Kernel) (l : List Block) (b : Block) (k' : Kernel) : Prop where
  free : FreeOk k' (release b l)
  frame : ∀ a : Word, ¬Covers l a.toNat → a ≠ addr b → k'.khdr a = k.khdr a
  only : OnlyArena k k'

theorem payload_sub : payload b - 0x100 = addr b := by
  rw [← addr_add, BitVec.add_sub_cancel]

theorem payload_ne_zero (hb : Placed b) : payload b ≠ 0 := by
  have hstop := hb.stop
  have hunit := hb.unit
  simp only [Block.stop] at hstop
  intro h
  have h' := congrArg BitVec.toNat h
  change (b.start + 0x100) % 2 ^ 32 = 0 at h'
  omega

/-- The links and merges of `kfree`, with the place found. -/
theorem kfree_eq (hb : Placed b) (hne : addr b ≠ 0) {prev : Option Word}
    (hspot : Kernel.findSpot k.khdr (addr b) units none k.kfreelist = .done (prev, cur))
    (h₁ : k₁ = k.setHdr (addr b) { k.khdr (addr b) with next := cur })
    (h₂ : k₂ = k₁.setLink prev (addr b)) :
    k.kfree (payload b) = prev.elim (k₂.merge (addr b) cur)
      fun c => (k₂.merge (addr b) cur).merge c (addr b) := by
  subst h₁ h₂
  unfold Kernel.kfree
  rw [if_neg (payload_ne_zero hb), payload_sub]
  simp only [hspot]
  cases prev with
  | none => rfl
  | some c =>
    simp only [Kernel.merge, hne, ne_eq, not_false_eq_true, true_and, Option.elim_some]

/-- `kfree` releases the block. -/
theorem kfree_spec (hok : FreeOk k l) (hb : Placed b) (hne : addr b ≠ 0)
    (hsize : (k.khdr (addr b)).size.toNat = b.size) (hapart : ∀ c ∈ l, c.Apart b) :
    Frees k l b (k.kfree (payload b)) := by
  have hpos := hb.pos
  obtain ⟨p, s, cur, rfl, hp, hhead, hsp, hss, hspot⟩ :=
    findSpot_walk (a := addr b) hok.chain hok.length_lt none
  rw [toNat_addr hb.start_lt] at hp hhead
  have hord := ordered_insert hok.spaced hpos hapart hp hhead
  obtain ⟨hpp, hps⟩ := List.forall_mem_append.mp hok.placed
  have hplaced : ∀ c ∈ p ++ b :: s, Placed c :=
    List.forall_mem_append.mpr ⟨hpp, List.forall_mem_cons.mpr ⟨hb, hps⟩⟩
  have hd := hord.distinct fun c hc => (hplaced c hc).start_lt
  rw [kfree_eq hb hne hspot rfl rfl]
  generalize hk₁ : k.setHdr (addr b) { k.khdr (addr b) with next := cur } = k₁
  generalize hk₂ : k₁.setLink (lastLink none p) (addr b) = k₂
  obtain ⟨hseg, hcur⟩ := hsp.insert hss hd hb hne hsize hk₁.symm hk₂.symm
  have hmerged := hseg.merge hd hb (fun c hc => (hok.placed c (List.mem_append_right _ hc)).stop) hcur
  have honly : OnlyArena k (k₂.merge (addr b) cur) := by
    rw [← hk₂, ← hk₁]
    exact ((onlyArena_setHdr k _ _).trans (onlyArena_setLink _ _ _)).trans (onlyArena_merge _ _ _)
  have hframe : ∀ a : Word, ¬Covers (p ++ s) a.toNat → a ≠ addr b →
      (k₂.merge (addr b) cur).khdr a = k.khdr a := by
    intro a ha hab
    rw [merge_khdr_ne hab, ← hk₂, setLink_khdr_ne, ← hk₁, setHdr_khdr_ne _ hab]
    exact fun e he => not_covers_addr (List.mem_append_left _ he) hok.spaced hok.placed ha
  have hrel := release_append hp hhead
  have hspaced := spaced_release hok.spaced hpos hapart
  have hplaced' := forall_mem_release (fun _ _ ha hc h => Placed.merge ha hc h) hb hok.placed
  rcases List.eq_nil_or_concat p with rfl | ⟨q, c, rfl⟩
  · refine ⟨⟨?_, hspaced, hplaced'⟩, hframe, honly⟩
    rw [hrel]
    exact hmerged
  · rw [List.concat_eq_append] at *
    have hcmem : c ∈ q ++ [c] := List.mem_append_right _ List.mem_cons_self
    have hc := hok.placed c (List.mem_append_left _ hcmem)
    have hjoin : ∀ e ∈ join b s, Placed e :=
      forall_mem_join (fun _ _ ha hc h => Placed.merge ha hc h) hb
        fun e he => hok.placed e (List.mem_append_right _ he)
    have hord' := hord.join
    rw [List.append_assoc] at hmerged hord'
    have hd' : Distinct (q ++ c :: join b s) := by
      refine hord'.distinct fun e he => ?_
      rcases List.mem_append.mp he with he | he
      · exact (hok.placed e (List.mem_append_left _ (List.mem_append_left _ he))).start_lt
      · exact (List.forall_mem_cons.mpr ⟨hc, hjoin⟩ e he).start_lt
    have hnext : ((k₂.merge (addr b) cur).khdr (addr c)).next = addr b := by
      obtain ⟨u, _, hrest⟩ := hmerged.split
      obtain ⟨j, t, hj, hstart⟩ := join_eq_cons b s
      cases hrest with
      | cons _ hcstart _ hrest =>
        rw [eq_addr hcstart, hj] at hrest
        rw [hrest.head, addr, hstart, addr]
    have hlist : release b (q ++ [c] ++ s) = q ++ join c (join b s) := by
      obtain ⟨hqc, _, hcross⟩ := List.pairwise_append.mp hok.spaced.gaps
      obtain ⟨hq, _, hqcgap⟩ := List.pairwise_append.mp hqc
      rw [hrel, List.foldr_append]
      refine foldr_join hq fun a ha => ?_
      have hac := hqcgap a ha c List.mem_cons_self
      have hcb := hp c hcmem
      refine forall_mem_join (fun _ _ h _ _ => h) hac ?_
      refine forall_mem_join (fun _ _ h _ _ => h) (Nat.lt_trans hac hcb) ?_
      exact fun e he => hcross a (List.mem_append_left _ ha) e he
    rw [lastLink_append, Option.elim_some]
    refine ⟨⟨?_, hspaced, hplaced'⟩, ?_, honly.trans (onlyArena_merge _ _ _)⟩
    · rw [hlist]
      exact hmerged.merge hd' hc (fun e he => (hjoin e he).stop) hnext
    · intro a ha hab
      rw [merge_khdr_ne, hframe a ha hab]
      exact not_covers_addr (List.mem_append_left _ hcmem) hok.spaced hok.placed ha

end

/-! ## The whole arena -/

/-- The state of the allocator: its free blocks and its live ones. The first call of
    `kalloc` sets the arena up, so an arena not used yet is one free block. -/
structure Heap (k : Kernel) (free live : List Block) : Prop where
  list : FreeOk k.kheapStart free
  placed : ∀ b ∈ live, Placed b
  size : ∀ b ∈ live, (k.kheapStart.khdr (addr b)).size.toNat = b.size
  apart : live.Pairwise Block.Apart
  apart_free : ∀ b ∈ live, ∀ c ∈ free, c.Apart b
  tiles : ∀ x, Covers free x ∨ Covers live x ↔ k.arena.toNat ≤ x ∧ x < k.arenaEnd.toNat
  arena : 0 < k.arena.toNat
  top : k.arenaEnd.toNat + 0x100 ≤ 2 ^ 32
  init : live ≠ [] → k.kheapInit = true

/-- The same of an arena that may reach to the end of the address space. -/
structure Tiled (k : Kernel) (free live : List Block) : Prop where
  list : FreeOk k.kheapStart free
  placed : ∀ b ∈ live, Placed b
  size : ∀ b ∈ live, (k.kheapStart.khdr (addr b)).size.toNat = b.size
  apart : live.Pairwise Block.Apart
  apart_free : ∀ b ∈ live, ∀ c ∈ free, c.Apart b
  tiles : ∀ x, Covers free x ∨ Covers live x ↔ k.arena.toNat ≤ x ∧ x < k.arenaEnd.toNat
  arena : 0 < k.arena.toNat
  init : live ≠ [] → k.kheapInit = true

/-- The kernels differ in the state of the allocator only. -/
def SameElse (k k' : Kernel) : Prop :=
  k' = { k with kheapInit := k'.kheapInit, kfreelist := k'.kfreelist, khdr := k'.khdr }

section

variable {k k₁ k₂ k' : Kernel} {b c : Block} {free live l : List Block} {n : Word}
variable {live' : List Block}

theorem SameElse.refl (k : Kernel) : SameElse k k := rfl

theorem SameElse.trans (h₁ : SameElse k k₁) (h₂ : SameElse k₁ k₂) : SameElse k k₂ := by
  unfold SameElse at *
  rw [h₂, h₁]

theorem OnlyArena.sameElse (h : OnlyArena k k') : SameElse k k' := by
  unfold SameElse
  rw [h]

theorem kheapInit_kheapStart (k : Kernel) : k.kheapStart.kheapInit = true := by
  unfold Kernel.kheapStart
  split
  next h => exact h
  next => rfl

theorem kheapStart_of_init (h : k.kheapInit = true) : k.kheapStart = k := if_pos h

theorem sameElse_kheapStart (k : Kernel) : SameElse k k.kheapStart := by
  unfold Kernel.kheapStart
  split <;> rfl

theorem kalloc_kheapStart : k.kheapStart.kalloc n = k.kalloc n := by
  unfold Kernel.kalloc
  rw [kheapStart_of_init (kheapInit_kheapStart k)]

theorem SameElse.arena_eq (h : SameElse k k') : k'.arena = k.arena := (congrArg Kernel.arena h :)

theorem SameElse.arenaEnd_eq (h : SameElse k k') : k'.arenaEnd = k.arenaEnd :=
  (congrArg Kernel.arenaEnd h :)

theorem SameElse.execmem_eq (h : SameElse k k') : k'.execmem = k.execmem :=
  (congrArg Kernel.execmem h :)

theorem SameElse.heapmem_eq (h : SameElse k k') : k'.heapmem = k.heapmem :=
  (congrArg Kernel.heapmem h :)

theorem OnlyArena.kheapInit_eq (h : OnlyArena k k') : k'.kheapInit = k.kheapInit :=
  (congrArg Kernel.kheapInit h :)

theorem Heap.tiled (h : Heap k free live) : Tiled k free live :=
  ⟨h.list, h.placed, h.size, h.apart, h.apart_free, h.tiles, h.arena, h.init⟩

theorem Tiled.heap (h : Tiled k free live) (htop : k.arenaEnd.toNat + 0x100 ≤ 2 ^ 32) :
    Heap k free live :=
  ⟨h.list, h.placed, h.size, h.apart, h.apart_free, h.tiles, h.arena, htop, h.init⟩

/-- A live block is within the arena. -/
theorem Tiled.addr_ne_zero (h : Tiled k free live) (hb : b ∈ live) : addr b ≠ 0 := by
  intro hzero
  have hplaced := h.placed b hb
  have hcov : Covers live b.start :=
    ⟨b, hb, has_start hplaced.pos⟩
  have hlo := ((h.tiles _).mp (.inr hcov)).1
  have hstart := toNat_addr hplaced.start_lt
  rw [hzero] at hstart
  have := h.arena
  change 0 = b.start at hstart
  omega

theorem Heap.stop_le (h : Heap k free live) (hb : b ∈ live) : b.stop ≤ k.arenaEnd.toNat := by
  have hplaced := h.placed b hb
  have hpos := hplaced.pos
  have hlast : b.Has (b.stop - 1) := by
    simp only [Block.Has, Block.stop]
    omega
  have hlt := ((h.tiles _).mp (.inr ⟨b, hb, hlast⟩)).2
  omega

/-- A block with no byte in common with the list is not touched by it. -/
theorem Tiled.not_covers (h : Tiled k free live) (hb : b ∈ live) : ¬Covers free (addr b).toNat := by
  have hplaced := h.placed b hb
  rw [toNat_addr hplaced.start_lt]
  rintro ⟨c, hc, hhas⟩
  exact (h.apart_free b hb c hc).not_has hhas
    (has_start hplaced.pos)

/-- A block taken from the free list is a live one. -/
theorem Tiled.allocates {free' : List Block} (h : Tiled k free live)
    (hal : Allocates k.kheapStart free b free' k') (htakes : Takes free b free') :
    Tiled k' free' (b :: live) ∧ SameElse k k' := by
  have hsame : SameElse k k' := (sameElse_kheapStart k).trans hal.only.sameElse
  have hinit : k'.kheapInit = true := hal.only.kheapInit_eq.trans (kheapInit_kheapStart k)
  have hcov : ∀ x, Covers free x ∨ Covers live x ↔ Covers free' x ∨ Covers (b :: live) x := by
    intro x
    rw [htakes.covers, covers_cons, or_assoc, or_left_comm]
  have hdisj : ∀ c ∈ live, b.Apart c := by
    intro c hc
    refine Block.apart_of_not_has htakes.pos
      (h.placed c hc).pos fun x hx hcx => ?_
    obtain ⟨e, he, hex⟩ := (htakes.covers x).mpr (.inl hx)
    exact (h.apart_free c hc e he).not_has hex hcx
  refine ⟨⟨?_, List.forall_mem_cons.mpr ⟨hal.placed, h.placed⟩, ?_,
    List.pairwise_cons.mpr ⟨hdisj, h.apart⟩, ?_, fun x => ?_, ?_, fun _ => hinit⟩, hsame⟩
  · rw [kheapStart_of_init hinit]
    exact hal.free
  · rw [kheapStart_of_init hinit]
    refine List.forall_mem_cons.mpr ⟨hal.size, fun c hc => ?_⟩
    rw [hal.frame _ (h.not_covers hc)]
    exact h.size c hc
  · refine List.forall_mem_cons.mpr ⟨htakes.apart, fun c hc e he => ?_⟩
    refine Block.apart_of_not_has (htakes.spaced.pos e he)
      (h.placed c hc).pos fun x hx hcx => ?_
    obtain ⟨f, hf, hfx⟩ := (htakes.covers x).mpr (.inr ⟨e, he, hx⟩)
    exact (h.apart_free c hc f hf).not_has hfx hcx
  · rw [← hcov, h.tiles, hsame.arena_eq, hsame.arenaEnd_eq]
  · rw [hsame.arena_eq]
    exact h.arena

/-- `kalloc` makes the first fit a live block, or fails. -/
theorem Tiled.kalloc (h : Tiled k free live) (hn : n.toNat ≤ 2 ^ 32 - 0x200) :
    firstFit 0x200 (Kernel.blockSize n).toNat free = none ∧ k.kalloc n = (k.kheapStart, 0) ∨
      ∃ b free' k', firstFit 0x200 (Kernel.blockSize n).toNat free = some (b, free') ∧
        k.kalloc n = (k', payload b) ∧ Tiled k' free' (b :: live) ∧ SameElse k k' ∧
        Takes free b free' ∧ n.toNat + 0x100 ≤ b.size := by
  have hsize := toNat_blockSize hn
  rw [← kalloc_kheapStart]
  rcases kalloc_eq (kheapInit_kheapStart k) h.list hn with hnone | hsome
  · exact .inl hnone
  · obtain ⟨b, free', k', hfit, heq, hal⟩ := hsome
    obtain ⟨htakes, hle⟩ := takes_firstFit h.list.spaced (by decide) (by omega) hfit
    obtain ⟨htiled, hsame⟩ := h.allocates hal htakes
    exact .inr ⟨b, free', k', hfit, heq, htiled, hsame, htakes, by omega⟩

theorem Heap.kalloc (h : Heap k free live) (hn : n.toNat ≤ 2 ^ 32 - 0x200) :
    firstFit 0x200 (Kernel.blockSize n).toNat free = none ∧ k.kalloc n = (k.kheapStart, 0) ∨
      ∃ b free' k', firstFit 0x200 (Kernel.blockSize n).toNat free = some (b, free') ∧
        k.kalloc n = (k', payload b) ∧ Heap k' free' (b :: live) ∧ SameElse k k' ∧
        Takes free b free' ∧ n.toNat + 0x100 ≤ b.size := by
  rcases h.tiled.kalloc hn with hnone | ⟨b, free', k', hfit, heq, htiled, hsame, hrest⟩
  · exact .inl hnone
  · have htop := h.top
    rw [← hsame.arenaEnd_eq] at htop
    exact .inr ⟨b, free', k', hfit, heq, htiled.heap htop, hsame, hrest⟩

/-- The arena set up. -/
theorem Tiled.start (h : Tiled k free live) : Tiled k.kheapStart free live := by
  have hinit := kheapInit_kheapStart k
  have hsame := sameElse_kheapStart k
  refine ⟨?_, h.placed, ?_, h.apart, h.apart_free, fun x => ?_, ?_, fun _ => hinit⟩
  · rw [kheapStart_of_init hinit]
    exact h.list
  · rw [kheapStart_of_init hinit]
    exact h.size
  · rw [hsame.arena_eq, hsame.arenaEnd_eq, h.tiles]
  · rw [hsame.arena_eq]
    exact h.arena

theorem Heap.start (h : Heap k free live) : Heap k.kheapStart free live :=
  h.tiled.start.heap ((sameElse_kheapStart k).arenaEnd_eq ▸ h.top)

/-- `kfree` makes a live block free. -/
theorem Tiled.kfree (h : Tiled k free (b :: live)) :
    Tiled (k.kfree (payload b)) (release b free) live ∧ SameElse k (k.kfree (payload b)) := by
  have hinit := h.init (List.cons_ne_nil _ _)
  have hstart := kheapStart_of_init hinit
  obtain ⟨hb, hplaced⟩ := List.forall_mem_cons.mp h.placed
  obtain ⟨hbsize, hsize⟩ := List.forall_mem_cons.mp h.size
  obtain ⟨hbapart, hapart⟩ := List.pairwise_cons.mp h.apart
  obtain ⟨hbfree, hlive⟩ := List.forall_mem_cons.mp h.apart_free
  have hlist := h.list
  rw [hstart] at hbsize hsize hlist
  have hfrees := kfree_spec hlist hb (h.addr_ne_zero List.mem_cons_self) hbsize hbfree
  generalize k.kfree (payload b) = k' at hfrees ⊢
  have hinit' : k'.kheapInit = true := hfrees.only.kheapInit_eq.trans hinit
  have hsame := hfrees.only.sameElse
  have hpos := hb.pos
  refine ⟨⟨?_, hplaced, ?_, hapart, ?_, fun x => ?_, ?_, fun _ => hinit'⟩, hsame⟩
  · rw [kheapStart_of_init hinit']
    exact hfrees.free
  · rw [kheapStart_of_init hinit']
    intro c hc
    rw [hfrees.frame _ (h.not_covers (List.mem_cons_of_mem _ hc)) fun heq => ?_]
    · exact hsize c hc
    · have hstarts := addr_inj (hplaced c hc).start_lt hb.start_lt heq
      have hcpos := (hplaced c hc).pos
      rcases hbapart c hc with h | h <;> simp only [Block.stop] at h <;> omega
  · intro c hc e he
    refine Block.apart_of_not_has ((spaced_release hlist.spaced hpos hbfree).pos e he)
      (hplaced c hc).pos fun x hx hcx => ?_
    rcases covers_release.mp ⟨e, he, hx⟩ with hbx | ⟨f, hf, hfx⟩
    · exact (hbapart c hc).not_has hbx hcx
    · exact (hlive c hc f hf).not_has hfx hcx
  · rw [hsame.arena_eq, hsame.arenaEnd_eq, ← h.tiles, covers_release, covers_cons, or_assoc,
      or_left_comm]
  · rw [hsame.arena_eq]
    exact h.arena

theorem Heap.kfree (h : Heap k free (b :: live)) :
    Heap (k.kfree (payload b)) (release b free) live ∧ SameElse k (k.kfree (payload b)) := by
  obtain ⟨htiled, hsame⟩ := h.tiled.kfree
  have htop := h.top
  rw [← hsame.arenaEnd_eq] at htop
  exact ⟨htiled.heap htop, hsame⟩

/-- What the allocator goes by. -/
structure ArenaState where
  arena : Word
  arenaEnd : Word
  kheapInit : Bool
  kfreelist : Word
  khdr : Word → Khdr

def Kernel.arenaState (k : Kernel) : ArenaState :=
  ⟨k.arena, k.arenaEnd, k.kheapInit, k.kfreelist, k.khdr⟩

theorem arenaState_kheapStart (h : k'.arenaState = k.arenaState) :
    k'.kheapStart.arenaState = k.kheapStart.arenaState := by
  obtain ⟨ha, he, hi, hf, hh⟩ := ArenaState.mk.injEq .. ▸ h
  unfold Kernel.kheapStart
  rw [hi]
  split
  · exact h
  · simp [Kernel.arenaState, Kernel.setHdr, ha, he, hh]

theorem Heap.congr (h : Heap k free live) (hsame : k'.arenaState = k.arenaState) :
    Heap k' free live := by
  have hstart := arenaState_kheapStart hsame
  have hkhdr : k'.kheapStart.khdr = k.kheapStart.khdr := congrArg ArenaState.khdr hstart
  have hlist : k'.kheapStart.kfreelist = k.kheapStart.kfreelist := congrArg ArenaState.kfreelist hstart
  have harena : k'.arena = k.arena := congrArg ArenaState.arena hsame
  have hend : k'.arenaEnd = k.arenaEnd := congrArg ArenaState.arenaEnd hsame
  have hinit : k'.kheapInit = k.kheapInit := congrArg ArenaState.kheapInit hsame
  refine ⟨⟨?_, h.list.spaced, h.list.placed⟩, h.placed, ?_, h.apart, h.apart_free, ?_, ?_, ?_, ?_⟩
  · rw [hkhdr, hlist]
    exact h.list.chain
  · rw [hkhdr]
    exact h.size
  · rw [harena, hend]
    exact h.tiles
  · rw [harena]
    exact h.arena
  · rw [hend]
    exact h.top
  · rw [hinit]
    exact h.init

/-- The order of the live blocks does not matter. -/
theorem Tiled.perm (h : Tiled k free live) (hp : live.Perm live') :
    Tiled k free live' := by
  have hmem : ∀ b, b ∈ live' ↔ b ∈ live := fun b => hp.mem_iff.symm
  refine ⟨h.list, fun b hb => h.placed b ((hmem b).mp hb), fun b hb => h.size b ((hmem b).mp hb),
    (hp.pairwise_iff fun h => Block.Apart.symm h).mp h.apart,
    fun b hb => h.apart_free b ((hmem b).mp hb), fun x => ?_, h.arena, fun hne => h.init ?_⟩
  · rw [← h.tiles]
    simp only [Covers, hmem]
  · rintro rfl
    exact hne (List.nil_perm.mp hp)

theorem Heap.perm (h : Heap k free live) (hp : live.Perm live') :
    Heap k free live' := (h.tiled.perm hp).heap h.top

/-- The arena before its first use. -/
theorem untouched_chain (hinit : k.kheapInit = false) (hpos : 0 < k.arena.toNat)
    (hle : k.arena.toNat ≤ k.arenaEnd.toNat) : Seg k.kheapStart.khdr k.kheapStart.kfreelist
      [⟨k.arena.toNat, k.arenaEnd.toNat - k.arena.toNat⟩] 0 := by
  have hsize : (k.arenaEnd - k.arena).toNat = k.arenaEnd.toNat - k.arena.toNat :=
    BitVec.toNat_sub_of_le (BitVec.le_def.mpr hle)
  have hstart : k.kheapStart = { k with kheapInit := true, kfreelist := k.arena }.setHdr k.arena
      { size := k.arenaEnd - k.arena, next := 0 } := by
    rw [Kernel.kheapStart, hinit]
    rfl
  have hne : k.arena ≠ 0 := fun h => Nat.ne_of_gt hpos (congrArg BitVec.toNat h)
  have hhdr : k.kheapStart.khdr k.arena = { size := k.arenaEnd - k.arena, next := 0 } := by
    rw [hstart]
    exact Function.update_self ..
  have hlist : k.kheapStart.kfreelist = k.arena := by
    rw [hstart]
    rfl
  rw [hlist]
  refine .cons hne rfl (by rw [hhdr, hsize]) ?_
  rw [hhdr]
  exact .nil 0

theorem Tiled.untouched (hinit : k.kheapInit = false) (hpos : 0 < k.arena.toNat)
    (halign : k.arena.toNat % 4 = 0) (hroom : k.arena.toNat + 0x100 ≤ k.arenaEnd.toNat) :
    Tiled k [⟨k.arena.toNat, k.arenaEnd.toNat - k.arena.toNat⟩] [] := by
  refine ⟨⟨untouched_chain hinit hpos (by omega), ?_, ?_⟩, nofun, nofun, .nil, nofun, fun x => ?_,
    hpos, fun h => absurd rfl h⟩
  · exact ⟨List.forall_mem_singleton.mpr (by show 0 < k.arenaEnd.toNat - k.arena.toNat; omega),
      List.pairwise_singleton _ _⟩
  · refine List.forall_mem_singleton.mpr ⟨halign, ?_, ?_⟩
    · show 0x100 ≤ k.arenaEnd.toNat - k.arena.toNat
      omega
    · show k.arena.toNat + (k.arenaEnd.toNat - k.arena.toNat) < 2 ^ 32
      omega
  · rw [covers_cons]
    simp only [Block.Has, Block.stop, covers_nil, or_false]
    omega

end

end DmaCpu.Xv6
