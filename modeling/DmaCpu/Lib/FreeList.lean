-- SUMMARY: Lists of free blocks in address order: first fit, release with merging, and what they cover.
import Mathlib.Data.List.Basic

/-!
# Free lists

A list of blocks is `Spaced` when it is in address order with a gap between any two
blocks. Such a list is determined by what it covers. Taking a block removes what the
block covers and giving it back adds it again, so blocks that have been taken one
after the other can be given back in any order.
-/
namespace DmaCpu.FreeList

open List

structure Block where
  start : Nat
  size : Nat
deriving DecidableEq, Repr

namespace Block

def stop (b : Block) : Nat := b.start + b.size

def Has (b : Block) (x : Nat) : Prop := b.start ≤ x ∧ x < b.stop

def Apart (a b : Block) : Prop := a.stop ≤ b.start ∨ b.stop ≤ a.start

theorem Apart.symm {a b : Block} (h : a.Apart b) : b.Apart a := Or.symm h

theorem Apart.not_has {a b : Block} {x : Nat} (h : a.Apart b) (ha : a.Has x) : ¬b.Has x := by
  rintro ⟨hlo, hhi⟩
  have := ha.1
  have := ha.2
  rcases h with h | h <;> omega

/-- Nonempty blocks with no byte in common lie one behind the other. -/
theorem apart_of_not_has {a b : Block} (ha : 0 < a.size) (hb : 0 < b.size)
    (h : ∀ x, a.Has x → ¬b.Has x) : a.Apart b := by
  by_contra hnot
  simp only [Apart, not_or, Nat.not_le, stop] at hnot
  apply h (max a.start b.start)
  · exact ⟨Nat.le_max_left _ _, Nat.max_lt.mpr ⟨Nat.lt_add_of_pos_right ha, hnot.1⟩⟩
  · exact ⟨Nat.le_max_right _ _, Nat.max_lt.mpr ⟨hnot.2, Nat.lt_add_of_pos_right hb⟩⟩

end Block

/-- Some block of the list has the byte. -/
def Covers (l : List Block) (x : Nat) : Prop := ∃ b ∈ l, b.Has x

/-- Nonempty blocks in address order, with a gap between any two. -/
structure Spaced (l : List Block) : Prop where
  pos : ∀ b ∈ l, 0 < b.size
  gaps : l.Pairwise fun a b => a.stop < b.start

section

variable {l l' : List Block} {a b c : Block} {x n : Nat}

theorem covers_nil : ¬Covers [] x := fun ⟨_, h, _⟩ => nomatch h

theorem covers_cons : Covers (b :: l) x ↔ b.Has x ∨ Covers l x := by
  simp [Covers]

theorem covers_append : Covers (l ++ l') x ↔ Covers l x ∨ Covers l' x := by
  simp [Covers, or_and_right, exists_or]

theorem spaced_nil : Spaced [] := ⟨fun _ h => (nomatch h), .nil⟩

theorem spaced_cons : Spaced (b :: l) ↔ 0 < b.size ∧ (∀ c ∈ l, b.stop < c.start) ∧ Spaced l := by
  constructor
  · intro h
    obtain ⟨hb, hl⟩ := pairwise_cons.mp h.gaps
    exact ⟨h.pos b mem_cons_self, hb, fun c hc => h.pos c (mem_cons_of_mem _ hc), hl⟩
  · rintro ⟨hpos, hb, hl⟩
    exact ⟨forall_mem_cons.mpr ⟨hpos, hl.pos⟩, pairwise_cons.mpr ⟨hb, hl.gaps⟩⟩

theorem Spaced.sublist (h : Spaced l) (hsub : l'.Sublist l) : Spaced l' :=
  ⟨fun c hc => h.pos c (hsub.subset hc), h.gaps.sublist hsub⟩

theorem has_start (h : 0 < b.size) : b.Has b.start := ⟨Nat.le_refl _, Nat.lt_add_of_pos_right h⟩

/-- The blocks behind a block cover nothing of it, and nothing next to it. -/
theorem lt_of_covers_tail (h : ∀ c ∈ l, n < c.start) (hx : Covers l x) : n < x := by
  obtain ⟨c, hc, hlo, _⟩ := hx
  exact Nat.lt_of_lt_of_le (h c hc) hlo

theorem start_le_of_covers (h : Spaced (b :: l)) (hx : Covers (b :: l) x) : b.start ≤ x := by
  obtain ⟨_, hgap, _⟩ := spaced_cons.mp h
  rcases covers_cons.mp hx with hb | hl
  · exact hb.1
  · have := lt_of_covers_tail hgap hl
    exact Nat.le_of_lt (Nat.lt_of_le_of_lt (Nat.le_add_right _ _) this)

/-- A block of the list has a gap behind it. -/
theorem Spaced.not_covers_stop (h : Spaced l) (hb : b ∈ l) : ¬Covers l b.stop := by
  induction l with
  | nil => cases hb
  | cons a l ih =>
    obtain ⟨_, hgap, hl⟩ := spaced_cons.mp h
    intro hx
    rcases mem_cons.mp hb with rfl | hb <;> rcases covers_cons.mp hx with ha | hx
    · exact Nat.lt_irrefl _ ha.2
    · exact Nat.lt_irrefl _ (lt_of_covers_tail hgap hx)
    · exact Nat.lt_asymm ha.2 (Nat.lt_of_lt_of_le (hgap b hb) (Nat.le_add_right _ _))
    · exact ih hl hb hx

/-- The first block of a list that covers as much ends no later. -/
theorem stop_le_of_covers (hs : Spaced (a :: l)) (hcov : ∀ x, Covers (b :: l') x → Covers (a :: l) x)
    (hstart : a.start = b.start) (ha : 0 < a.size) : b.stop ≤ a.stop := by
  by_contra hlt
  have hhas : b.Has a.stop := by
    refine ⟨?_, Nat.not_le.mp hlt⟩
    rw [← hstart]
    exact Nat.le_of_lt (Nat.lt_add_of_pos_right ha)
  exact hs.not_covers_stop mem_cons_self (hcov _ (covers_cons.mpr (.inl hhas)))

theorem covers_tail_iff (h : Spaced (b :: l)) : Covers l x ↔ Covers (b :: l) x ∧ ¬b.Has x := by
  obtain ⟨_, hgap, _⟩ := spaced_cons.mp h
  constructor
  · intro hx
    exact ⟨covers_cons.mpr (.inr hx), fun hb => Nat.lt_asymm hb.2 (lt_of_covers_tail hgap hx)⟩
  · rintro ⟨hx, hb⟩
    exact (covers_cons.mp hx).resolve_left hb

/-- A spaced list is determined by what it covers. -/
theorem Spaced.eq_of_covers (h : Spaced l) (h' : Spaced l') (hcov : ∀ x, Covers l x ↔ Covers l' x) :
    l = l' := by
  induction l generalizing l' with
  | nil =>
    cases l' with
    | nil => rfl
    | cons b l' =>
      have hb := has_start (h'.pos b mem_cons_self)
      exact absurd ((hcov _).mpr (covers_cons.mpr (.inl hb))) covers_nil
  | cons a l ih =>
    have ha := h.pos a mem_cons_self
    cases l' with
    | nil => exact absurd ((hcov _).mp (covers_cons.mpr (.inl (has_start ha)))) covers_nil
    | cons b l' =>
      have hb := h'.pos b mem_cons_self
      have hstart : a.start = b.start := Nat.le_antisymm
        (start_le_of_covers h ((hcov _).mpr (covers_cons.mpr (.inl (has_start hb)))))
        (start_le_of_covers h' ((hcov _).mp (covers_cons.mpr (.inl (has_start ha)))))
      have hstop : a.stop = b.stop := Nat.le_antisymm
        (stop_le_of_covers h' (fun x => (hcov x).mp) hstart.symm hb)
        (stop_le_of_covers h (fun x => (hcov x).mpr) hstart ha)
      have hab : a = b := by
        obtain ⟨as, an⟩ := a
        simp only [Block.stop] at hstart hstop
        subst hstart
        rw [Nat.add_left_cancel hstop]
      subst hab
      rw [ih (spaced_cons.mp h).2.2 (spaced_cons.mp h').2.2 fun x => by
        rw [covers_tail_iff h, covers_tail_iff h', hcov]]

end

/-! ## First fit -/

/-- Take `n` bytes from the start of the first block that has them. What is left of
    the block stays in the list, unless it is less than `slack`: then the whole block
    is taken. -/
def firstFit (slack n : Nat) : List Block → Option (Block × List Block)
  | [] => none
  | b :: l =>
    if n ≤ b.size then
      if slack ≤ b.size - n then some (⟨b.start, n⟩, ⟨b.start + n, b.size - n⟩ :: l)
      else some (b, l)
    else (firstFit slack n l).map fun r => (r.1, b :: r.2)

/-- Block `b` comes out of the list `l`, and `l'` is left. -/
structure Takes (l : List Block) (b : Block) (l' : List Block) : Prop where
  spaced : Spaced l'
  pos : 0 < b.size
  apart : ∀ c ∈ l', c.Apart b
  covers : ∀ x, Covers l x ↔ b.Has x ∨ Covers l' x

variable {p s : List Block}

section

variable {l l' l₁ l₂ : List Block} {a b c : Block} {x n m slack : Nat}

/-- The blocks of a list lie where another list covers. -/
theorem start_mem (h : ∀ x, Covers l' x → Covers l x) (hs : Spaced l') (hc : c ∈ l') :
    Covers l c.start := h _ ⟨c, hc, has_start (hs.pos c hc)⟩

theorem Takes.cons (h : Takes l b l') (hs : Spaced (a :: l)) : Takes (a :: l) b (a :: l') := by
  obtain ⟨hpos, hgap, _⟩ := spaced_cons.mp hs
  have hb : a.stop < b.start :=
    lt_of_covers_tail hgap ((h.covers _).mpr (.inl (has_start h.pos)))
  refine ⟨spaced_cons.mpr ⟨hpos, fun c hc => ?_, h.spaced⟩, h.pos, ?_, fun x => ?_⟩
  · exact lt_of_covers_tail hgap (start_mem (fun x hx => (h.covers x).mpr (.inr hx)) h.spaced hc)
  · exact forall_mem_cons.mpr ⟨.inl (Nat.le_of_lt hb), h.apart⟩
  · rw [covers_cons, covers_cons, h.covers]
    exact or_left_comm

theorem takes_head (h : Spaced (b :: l)) : Takes (b :: l) b l := by
  obtain ⟨hpos, hgap, hl⟩ := spaced_cons.mp h
  exact ⟨hl, hpos, fun c hc => .inr (Nat.le_of_lt (hgap c hc)), fun x => covers_cons⟩

/-- A block cut in two, of which one piece is taken. -/
theorem takes_piece {r : Block} (h : Spaced (b :: l)) (hc : 0 < c.size) (hr : 0 < r.size)
    (hapart : r.Apart c) (hhas : ∀ x, b.Has x ↔ c.Has x ∨ r.Has x) : Takes (b :: l) c (r :: l) := by
  obtain ⟨_, hgap, hl⟩ := spaced_cons.mp h
  -- the last byte of a piece is a byte of the block
  have hend : ∀ {e : Block}, 0 < e.size → (∀ x, e.Has x → b.Has x) → e.stop ≤ b.stop := by
    intro e he hsub
    have hlast := (hsub (e.stop - 1) (by simp only [Block.Has, Block.stop]; omega)).2
    omega
  have hrstop := hend hr fun x hx => (hhas x).mpr (.inr hx)
  have hcstop := hend hc fun x hx => (hhas x).mpr (.inl hx)
  refine ⟨spaced_cons.mpr ⟨hr, fun e he => Nat.lt_of_le_of_lt hrstop (hgap e he), hl⟩, hc, ?_, ?_⟩
  · refine forall_mem_cons.mpr ⟨hapart, fun e he => .inr ?_⟩
    exact Nat.le_of_lt (Nat.lt_of_le_of_lt hcstop (hgap e he))
  · intro x
    rw [covers_cons, covers_cons, hhas, or_assoc]

theorem takes_split (h : Spaced (b :: l)) (hn : 0 < n) (hlt : n < b.size) :
    Takes (b :: l) ⟨b.start, n⟩ (⟨b.start + n, b.size - n⟩ :: l) := by
  refine takes_piece h hn (Nat.sub_pos_of_lt hlt) (.inr (Nat.le_refl _)) fun x => ?_
  simp only [Block.Has, Block.stop]
  omega

/-- The end of a block, with `n` bytes, taken. -/
theorem takes_top (h : Spaced (b :: l)) (hn : 0 < n) (hlt : n < b.size) :
    Takes (b :: l) ⟨b.start + (b.size - n), n⟩ (⟨b.start, b.size - n⟩ :: l) := by
  refine takes_piece h hn (Nat.sub_pos_of_lt hlt) (.inl (Nat.le_refl _)) fun x => ?_
  simp only [Block.Has, Block.stop]
  omega

theorem Takes.append (h : Takes l b l') (hs : Spaced (p ++ l)) : Takes (p ++ l) b (p ++ l') := by
  induction p with
  | nil => exact h
  | cons a p ih => exact (ih (spaced_cons.mp hs).2.2).cons hs

theorem takes_firstFit (h : Spaced l) (hslack : 0 < slack) (hn : 0 < n)
    (hfit : firstFit slack n l = some (b, l')) : Takes l b l' ∧ n ≤ b.size := by
  induction l generalizing b l' with
  | nil => cases hfit
  | cons a l ih =>
    rw [firstFit] at hfit
    split at hfit
    next hle =>
      split at hfit
      next hsl =>
        cases hfit
        exact ⟨takes_split h hn (by omega), Nat.le_refl _⟩
      next =>
        cases hfit
        exact ⟨takes_head h, hle⟩
    next =>
      obtain ⟨⟨b', l₁⟩, hrest, heq⟩ := Option.map_eq_some_iff.mp hfit
      cases heq
      obtain ⟨htake, hle⟩ := ih (spaced_cons.mp h).2.2 hrest
      exact ⟨htake.cons h, hle⟩

theorem firstFit_eq_none (h : ∀ b ∈ l, b.size < n) : firstFit slack n l = none := by
  induction l with
  | nil => rfl
  | cons b l ih =>
    obtain ⟨hb, hl⟩ := forall_mem_cons.mp h
    rw [firstFit, if_neg (Nat.not_le.mpr hb), ih hl]
    rfl

theorem lt_of_firstFit_eq_none (h : firstFit slack n l = none) : ∀ b ∈ l, b.size < n := by
  induction l with
  | nil => exact nofun
  | cons b l ih =>
    rw [firstFit] at h
    split at h
    next => split at h <;> cases h
    next hb => exact forall_mem_cons.mpr ⟨Nat.not_le.mp hb, ih (Option.map_eq_none_iff.mp h)⟩

theorem firstFit_append (hp : ∀ c ∈ p, c.size < n) (hb : n ≤ b.size) :
    firstFit slack n (p ++ b :: s) = some (if slack ≤ b.size - n then
      (⟨b.start, n⟩, p ++ ⟨b.start + n, b.size - n⟩ :: s) else (b, p ++ s)) := by
  induction p with
  | nil =>
    show firstFit slack n (b :: s) = _
    rw [firstFit, if_pos hb]
    split <;> rfl
  | cons c p ih =>
    obtain ⟨hc, hp⟩ := forall_mem_cons.mp hp
    show firstFit slack n (c :: (p ++ b :: s)) = _
    rw [firstFit, if_neg (Nat.not_le.mpr hc), ih hp]
    split <;> rfl

end

/-! ## Release -/

/-- Put a block in front of a list, merged with the first block if they touch. -/
def join (a : Block) : List Block → List Block
  | [] => [a]
  | c :: l => if a.stop = c.start then ⟨a.start, a.size + c.size⟩ :: l else a :: c :: l

/-- Put a block in its place, merged with the blocks that it touches. -/
def release (b : Block) : List Block → List Block
  | [] => [b]
  | c :: l => if c.start < b.start then join c (release b l) else join b (c :: l)

section

variable {l l' l₁ l₂ : List Block} {a b c : Block} {x n : Nat}

theorem join_eq_cons (a : Block) (l : List Block) : ∃ c l', join a l = c :: l' ∧ c.start = a.start := by
  cases l with
  | nil => exact ⟨a, [], rfl, rfl⟩
  | cons c l =>
    rw [join]
    split
    · exact ⟨_, _, rfl, rfl⟩
    · exact ⟨_, _, rfl, rfl⟩

theorem covers_join : Covers (join a l) x ↔ a.Has x ∨ Covers l x := by
  cases l with
  | nil => rw [join, covers_cons]
  | cons c l =>
    rw [join]
    split
    next h =>
      rw [covers_cons, covers_cons, ← or_assoc]
      apply or_congr_left
      simp only [Block.Has, Block.stop] at h ⊢
      omega
    next => rw [covers_cons]

theorem covers_release : Covers (release b l) x ↔ b.Has x ∨ Covers l x := by
  induction l with
  | nil => rw [release, covers_cons]
  | cons c l ih =>
    rw [release]
    split
    · rw [covers_join, ih, covers_cons]
      exact or_left_comm
    · rw [covers_join]

section

variable {P : Block → Prop} (hP : ∀ a c, P a → P c → a.stop = c.start → P ⟨a.start, a.size + c.size⟩)
include hP

/-- What merging keeps holds of the blocks of a join. -/
theorem forall_mem_join (ha : P a) (hl : ∀ c ∈ l, P c) : ∀ c ∈ join a l, P c := by
  cases l with
  | nil => exact forall_mem_singleton.mpr ha
  | cons c l =>
    obtain ⟨hc, hl'⟩ := forall_mem_cons.mp hl
    rw [join]
    split
    next h => exact forall_mem_cons.mpr ⟨hP a c ha hc h, hl'⟩
    next => exact forall_mem_cons.mpr ⟨ha, hl⟩

theorem forall_mem_release (hb : P b) (hl : ∀ c ∈ l, P c) : ∀ c ∈ release b l, P c := by
  induction l with
  | nil => exact forall_mem_singleton.mpr hb
  | cons c l ih =>
    obtain ⟨hc, hl'⟩ := forall_mem_cons.mp hl
    rw [release]
    split
    · exact forall_mem_join hP hc (ih hl')
    · exact forall_mem_join hP hb hl

end

theorem spaced_join (ha : 0 < a.size) (hl : Spaced l) (hle : ∀ c ∈ l, a.stop ≤ c.start) :
    Spaced (join a l) := by
  cases l with
  | nil => exact spaced_cons.mpr ⟨ha, fun c hc => (nomatch hc), spaced_nil⟩
  | cons c l =>
    obtain ⟨_, hgap, hl'⟩ := spaced_cons.mp hl
    rw [join]
    split
    next h =>
      refine spaced_cons.mpr ⟨Nat.add_pos_left ha _, fun e he => ?_, hl'⟩
      have := hgap e he
      simp only [Block.stop] at this h ⊢
      omega
    next h =>
      refine spaced_cons.mpr ⟨ha, forall_mem_cons.mpr ⟨?_, fun e he => ?_⟩, hl⟩
      · exact Nat.lt_of_le_of_ne (hle c mem_cons_self) h
      · have hc := hle c mem_cons_self
        have he' := hgap e he
        simp only [Block.stop] at hc he' ⊢
        omega

theorem spaced_release (hl : Spaced l) (hb : 0 < b.size) (hapart : ∀ c ∈ l, c.Apart b) :
    Spaced (release b l) := by
  induction l with
  | nil => exact spaced_cons.mpr ⟨hb, fun c hc => (nomatch hc), spaced_nil⟩
  | cons c l ih =>
    obtain ⟨hpos, hgap, hl'⟩ := spaced_cons.mp hl
    obtain ⟨hc, hrest⟩ := forall_mem_cons.mp hapart
    rw [release]
    split
    next hlt =>
      have hcb : c.stop ≤ b.start := by
        rcases hc with h | h
        · exact h
        · simp only [Block.stop] at h ⊢
          omega
      exact spaced_join hpos (ih hl' hrest) (forall_mem_release (fun _ _ ha _ _ => ha) hcb
        fun e he => Nat.le_of_lt (hgap e he))
    next hge =>
      refine spaced_join hb hl (forall_mem_cons.mpr ⟨?_, fun e he => ?_⟩)
      · rcases hc with h | h
        · simp only [Block.stop] at h
          omega
        · exact h
      · have he' := hgap e he
        rcases hc with h | h <;> simp only [Block.stop] at h he' ⊢ <;> omega

/-- A released block goes behind the blocks that start before it. -/
theorem release_append (hp : ∀ c ∈ p, c.start < b.start)
    (hs : ∀ c ∈ s.head?, b.start ≤ c.start) : release b (p ++ s) = p.foldr join (join b s) := by
  induction p with
  | nil =>
    cases s with
    | nil => rfl
    | cons c s =>
      show release b (c :: s) = _
      rw [release, if_neg (Nat.not_lt.mpr (hs c rfl))]
      rfl
  | cons c p ih =>
    obtain ⟨hc, hp⟩ := forall_mem_cons.mp hp
    show release b (c :: (p ++ s)) = _
    rw [release, if_pos hc, ih hp]
    rfl

/-- Blocks with a gap behind them stay as they are. -/
theorem foldr_join (hp : p.Pairwise fun a b => a.stop < b.start)
    (hl : ∀ a ∈ p, ∀ c ∈ l, a.stop < c.start) : p.foldr join l = p ++ l := by
  induction p with
  | nil => rfl
  | cons a p ih =>
    obtain ⟨ha, hp⟩ := pairwise_cons.mp hp
    obtain ⟨hal, hl⟩ := forall_mem_cons.mp hl
    rw [foldr_cons, ih hp hl]
    cases hpl : p ++ l with
    | nil =>
      rw [cons_append, hpl]
      rfl
    | cons c q =>
      have hc : c ∈ p ++ l := hpl ▸ mem_cons_self
      have hgap : a.stop < c.start := (mem_append.mp hc).elim (ha c) (hal c)
      rw [join, if_neg (Nat.ne_of_lt hgap), cons_append, hpl]

/-- Two blocks taken one after the other, given back in the same order. -/
theorem release_release (h : Spaced l) (hb : Takes l b l₁) (hc : Takes l₁ c l₂) :
    release c (release b l₂) = l := by
  have hbl : ∀ e ∈ l₂, e.Apart b := by
    intro e he
    apply Block.apart_of_not_has (hc.spaced.pos e he) hb.pos
    intro x hx hbx
    have hx₁ : Covers l₁ x := (hc.covers x).mpr (.inr ⟨e, he, hx⟩)
    obtain ⟨f, hf, hfx⟩ := hx₁
    exact (hb.apart f hf).not_has hfx hbx
  have hs := spaced_release hc.spaced hb.pos hbl
  have hcl : ∀ e ∈ release b l₂, e.Apart c := by
    intro e he
    apply Block.apart_of_not_has (hs.pos e he) hc.pos
    intro x hx hcx
    rcases covers_release.mp ⟨e, he, hx⟩ with hbx | ⟨f, hf, hfx⟩
    · obtain ⟨f, hf, hfx⟩ : Covers l₁ x := (hc.covers x).mpr (.inl hcx)
      exact (hb.apart f hf).not_has hfx hbx
    · exact (hc.apart f hf).not_has hfx hcx
  apply (spaced_release hs hc.pos hcl).eq_of_covers h
  intro x
  rw [covers_release, covers_release, hb.covers, hc.covers]
  exact or_left_comm

/-- A block taken and given back. -/
theorem release_takes (h : Spaced l) (hb : Takes l b l₁) : release b l₁ = l := by
  apply (spaced_release hb.spaced hb.pos hb.apart).eq_of_covers h
  intro x
  rw [covers_release, hb.covers]

end

end DmaCpu.FreeList
