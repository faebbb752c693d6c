-- SUMMARY: Free and live blocks tile the arena after every sequence of `kalloc`, `kalloc_top` and `kfree`.
import DmaCpu.Xv6.ArenaSpec

/-!
# Runs of the allocator

`kalloc_top` takes the end of the last block that is large enough, so it cuts a block
where `kalloc` does not. With it every call leaves the arena tiled, and a sequence of
calls does.
-/
namespace DmaCpu.Xv6

open FreeList

/-! ## kalloc_top -/

section

variable {hdr : Word → Khdr} {k k₁ k₂ : Kernel} {a h n : Word} {b : Block} {l p s : List Block}

/-- `kalloc_top` finds the last block that is large enough, and the link to it. -/
theorem lastFit_walk (hs : Seg hdr h l 0) {fuel : Nat} (hfuel : l.length < fuel)
    (pp : Option Word) (cand : Option (Option Word × Word)) :
    (∀ b ∈ l, b.size < n.toNat) ∧ Kernel.lastFit hdr n fuel pp h cand = .done cand ∨
      ∃ p b s, l = p ++ b :: s ∧ n.toNat ≤ b.size ∧
        Kernel.lastFit hdr n fuel pp h cand = .done (some (lastLink pp p, addr b)) := by
  induction l generalizing h fuel pp cand with
  | nil =>
    cases hs
    obtain ⟨fuel, rfl⟩ := Nat.exists_eq_succ_of_ne_zero (Nat.ne_zero_of_lt hfuel)
    exact .inl ⟨fun b hb => (nomatch hb), rfl⟩
  | cons b l ih =>
    cases hs with
    | cons hne hstart hsize hrest =>
      obtain ⟨fuel, rfl⟩ := Nat.exists_eq_succ_of_ne_zero (Nat.ne_zero_of_lt hfuel)
      rw [Kernel.lastFit, if_neg hne, eq_addr hstart]
      rw [eq_addr hstart] at hsize hrest
      have hfits : n ≤ (hdr (addr b)).size ↔ n.toNat ≤ b.size := by rw [BitVec.le_def, hsize]
      rcases ih hrest (Nat.lt_of_succ_lt_succ hfuel) (some (addr b)) _ with ⟨hall, heq⟩ | hfound
      · rw [heq]
        by_cases hle : n.toNat ≤ b.size
        · exact .inr ⟨[], b, l, rfl, hle, by rw [if_pos (hfits.mpr hle)]; rfl⟩
        · refine .inl ⟨List.forall_mem_cons.mpr ⟨Nat.not_le.mp hle, hall⟩, ?_⟩
          rw [if_neg (mt hfits.mp hle)]
      · obtain ⟨p, c, s, rfl, hc, heq⟩ := hfound
        exact .inr ⟨b :: p, c, s, rfl, hc, heq⟩

/-- The end of a block taken. -/
theorem allocates_top (hok : FreeOk k (p ++ b :: s)) (hn : 0x100 ≤ n.toNat)
    (hmod : n.toNat % 4 = 0) (hstop : b.stop % 4 = 0) (hle : n.toNat + 0x200 ≤ b.size)
    (h₁ : k₁ = k.setHdr (addr b) { k.khdr (addr b) with size := (k.khdr (addr b)).size - n })
    (h₂ : k₂ = k₁.setHdr a { k₁.khdr a with size := n })
    (ha : a = addr b + ((k.khdr (addr b)).size - n)) :
    ∃ c l', a = addr c ∧ Allocates k (p ++ b :: s) c l' k₂ ∧ Takes (p ++ b :: s) c l' ∧
      n.toNat ≤ c.size := by
  have hb := hok.placed b (List.mem_append_right _ List.mem_cons_self)
  have hbstop := hb.stop
  have halign := hb.align
  simp only [Block.stop] at hbstop hstop
  have hsub : ((k.khdr (addr b)).size - n).toNat = b.size - n.toNat := by
    rw [BitVec.toNat_sub_of_le (by rw [BitVec.le_def, hok.size_eq]; omega), hok.size_eq]
  have htakes : Takes (p ++ b :: s) _ _ := (takes_top (n := n.toNat)
    (hok.spaced.sublist (List.sublist_append_right _ _)) (by omega) (by omega)).append hok.spaced
  generalize hc : (⟨b.start + (b.size - n.toNat), n.toNat⟩ : Block) = c at htakes
  have hcstart : c.start = b.start + (b.size - n.toNat) := by rw [← hc]
  have hcsize : c.size = n.toNat := by rw [← hc]
  have hcp : Placed c := ⟨by omega, by omega, by simp only [Block.stop]; omega⟩
  have hac : a = addr c := by
    apply BitVec.eq_of_toNat_eq
    rw [ha, BitVec.toNat_add, toNat_addr hb.start_lt, hsub, toNat_addr hcp.start_lt, hcstart]
    exact Nat.mod_eq_of_lt (by omega)
  subst hac
  have hne : ∀ e : Block, e.start < c.start → addr e ≠ addr c := fun e he heq =>
    Nat.ne_of_lt he (addr_inj (Nat.lt_trans he hcp.start_lt) hcp.start_lt heq)
  obtain ⟨_, _, hdpb⟩ := List.pairwise_append.mp (distinct_of_spaced hok.spaced hok.placed)
  have hkeep : ∀ u, u ≠ addr c → u ≠ addr b → k₂.khdr u = k.khdr u := by
    intro u huc hub
    rw [h₂, setHdr_khdr_ne _ huc, h₁, setHdr_khdr_ne _ hub]
  obtain ⟨u, hp, hbs⟩ := hok.chain.split
  cases hbs.head
  have hlist : k₂.kfreelist = k.kfreelist := by rw [h₂, h₁]; rfl
  refine ⟨c, _, rfl, allocates_piece (n := n) hok htakes hcp ⟨halign, ?_, ?_⟩ (Nat.le_refl _)
    (by omega) rfl (hlist ▸ hp.congr fun e he => hkeep _ (hne e ?_) (hdpb e he b List.mem_cons_self))
    ?_ ?_ (fun u huc hub _ => hkeep u huc hub) ?_, htakes, Nat.le_of_eq hcsize.symm⟩
  · show _ ≤ b.size - n.toNat
    omega
  · show b.start + (b.size - n.toNat) < _
    omega
  · have hgap := (List.pairwise_append.mp hok.spaced.gaps).2.2 e he b List.mem_cons_self
    simp only [Block.stop] at hgap
    omega
  · show k₂.khdr (addr b) = _
    rw [h₂, setHdr_khdr_ne _ (hne b (by omega)), h₁, setHdr_khdr]
  · rw [h₂, setHdr_khdr, hcsize]
  · rw [h₂, h₁]
    exact (onlyArena_setHdr k _ _).trans (onlyArena_setHdr _ _ _)

/-- `kalloc_top` takes from the last fit, or fails and changes nothing. -/
theorem kallocTop_eq (hinit : k.kheapInit = true) (hok : FreeOk k l)
    (hstop : ∀ b ∈ l, b.stop % 4 = 0) (hn : n.toNat ≤ 2 ^ 32 - 0x200) :
    (∀ b ∈ l, b.size < (Kernel.blockSize n).toNat) ∧ k.kallocTop n = (k, 0) ∨
      ∃ b l' k', k.kallocTop n = (k', payload b) ∧ Allocates k l b l' k' ∧ Takes l b l' ∧
        (Kernel.blockSize n).toNat ≤ b.size := by
  have hsize := toNat_blockSize hn
  have hstart : k.kheapStart = k := if_pos hinit
  unfold Kernel.kallocTop
  simp only [hstart]
  generalize Kernel.blockSize n = size at hsize ⊢
  rcases lastFit_walk (n := size) hok.chain hok.length_lt none none with ⟨hall, heq⟩ | hfound
  · rw [heq]
    exact .inl ⟨hall, rfl⟩
  · obtain ⟨p, b, s, rfl, hb, heq⟩ := hfound
    have hsub : ((k.khdr (addr b)).size - size).toNat = b.size - size.toNat := by
      rw [BitVec.toNat_sub_of_le (by rw [BitVec.le_def, hok.size_eq]; exact hb), hok.size_eq]
    rw [heq]
    dsimp only
    right
    split
    next hslack =>
      rw [BitVec.le_def] at hslack
      change 0x200 ≤ _ at hslack
      obtain ⟨c, l', hc, hal, htakes, hle⟩ := allocates_top (n := size) hok (by omega)
        (by omega) (hstop b (List.mem_append_right _ List.mem_cons_self)) (by omega) rfl rfl rfl
      exact ⟨c, l', _, by rw [← addr_add, ← hc], hal, htakes, hle⟩
    next =>
      have htakes := (takes_head (hok.spaced.sublist (List.sublist_append_right _ _))).append hok.spaced
      exact ⟨b, p ++ s, _, by rw [addr_add], allocates_whole hok, htakes, hb⟩

end

/-! ## Calls -/

section

variable {k k₀ : Kernel} {n : Word} {free live : List Block}

/-- A free block ends where a live one begins, or at the end of the arena. -/
theorem Tiled.stop_mod_four (h : Tiled k free live) (hend : k.arenaEnd.toNat % 4 = 0) :
    ∀ b ∈ free, b.stop % 4 = 0 := by
  intro b hb
  have hpos := h.list.spaced.pos b hb
  have hlast : b.Has (b.stop - 1) := by
    simp only [Block.Has, Block.stop]
    omega
  obtain ⟨hlo, hhi⟩ := (h.tiles _).mp (.inl ⟨b, hb, hlast⟩)
  by_cases htop : b.stop = k.arenaEnd.toNat
  · rw [htop, hend]
  · rcases (h.tiles b.stop).mpr ⟨by omega, by omega⟩ with hfree | ⟨c, hc, hhas⟩
    · exact absurd hfree (h.list.spaced.not_covers_stop hb)
    · have hcs : c.start = b.stop := by
        have := hhas.1
        rcases h.apart_free c hc b hb with h | h
        · omega
        · have := hhas.2
          simp only [Block.stop] at *
          omega
      rw [← hcs]
      exact (h.placed c hc).align

/-- What a request for `n` bytes comes to: a live block with as many behind its header, or a
    failure because no free block has them. -/
def Serves (k : Kernel) (free live : List Block) (n : Word) (r : Kernel × Word) : Prop :=
  (∀ b ∈ free, b.size < (Kernel.blockSize n).toNat) ∧ r = (k.kheapStart, 0) ∨
    ∃ b free' k', r = (k', payload b) ∧ Tiled k' free' (b :: live) ∧ SameElse k k' ∧
      n.toNat + 0x100 ≤ b.size

theorem Tiled.serves_kalloc (h : Tiled k free live) (hn : n.toNat ≤ 2 ^ 32 - 0x200) :
    Serves k free live n (k.kalloc n) := by
  rcases h.kalloc hn with ⟨hnone, heq⟩ | ⟨b, free', k', _, heq, htiled, hsame, _, hle⟩
  · exact .inl ⟨lt_of_firstFit_eq_none hnone, heq⟩
  · exact .inr ⟨b, free', k', heq, htiled, hsame, hle⟩

theorem kallocTop_kheapStart : k.kheapStart.kallocTop n = k.kallocTop n := by
  unfold Kernel.kallocTop
  rw [kheapStart_of_init (kheapInit_kheapStart k)]

theorem Tiled.serves_kallocTop (h : Tiled k free live) (hend : k.arenaEnd.toNat % 4 = 0)
    (hn : n.toNat ≤ 2 ^ 32 - 0x200) : Serves k free live n (k.kallocTop n) := by
  have hsize := toNat_blockSize hn
  rw [← kallocTop_kheapStart]
  rcases kallocTop_eq (kheapInit_kheapStart k) h.list (h.stop_mod_four hend) hn with hnone | hsome
  · exact .inl hnone
  · obtain ⟨b, free', k', heq, hal, htakes, hle⟩ := hsome
    obtain ⟨htiled, hsame⟩ := h.allocates hal htakes
    exact .inr ⟨b, free', k', heq, htiled, hsame, by omega⟩

/-- A request that succeeds adds its pointer to those handed out. -/
def handOut (r n : Word) (live : List (Word × Word)) : List (Word × Word) :=
  if r = 0 then live else (r, n) :: live

/-- A sequence of calls from `k₀`: the kernel it leaves, and the pointers handed out and not
    given back, each with the bytes that were asked for. -/
inductive Calls (k₀ : Kernel) : Kernel → List (Word × Word) → Prop where
  | start : Calls k₀ k₀ []
  | kalloc {k : Kernel} {live : List (Word × Word)} (h : Calls k₀ k live) (n : Word)
      (hn : n.toNat < 2 ^ 31) : Calls k₀ (k.kalloc n).1 (handOut (k.kalloc n).2 n live)
  | kallocTop {k : Kernel} {live : List (Word × Word)} (h : Calls k₀ k live) (n : Word)
      (hn : n.toNat < 2 ^ 31) : Calls k₀ (k.kallocTop n).1 (handOut (k.kallocTop n).2 n live)
  | kfree {k : Kernel} {a n : Word} {live live' : List (Word × Word)}
      (h : Calls k₀ k (live ++ (a, n) :: live')) : Calls k₀ (k.kfree a) (live ++ live')

/-- An arena that has not been used. Block headers are words, so its bounds are word
    addresses, and its first header is not at the null pointer. -/
structure Unused (k : Kernel) : Prop where
  init : k.kheapInit = false
  null : k.arena ≠ 0
  align : k.arena.toNat % 4 = 0 ∧ k.arenaEnd.toNat % 4 = 0
  order : k.arena ≤ k.arenaEnd

theorem Unused.pos (h : Unused k) : 0 < k.arena.toNat :=
  Nat.pos_of_ne_zero fun h0 => h.null (BitVec.eq_of_toNat_eq h0)

/-- The block of a pointer, as its header has it. -/
def Kernel.block (k : Kernel) (a : Word) : Block := ⟨(a - 0x100).toNat, (k.khdr (a - 0x100)).size.toNat⟩

/-- What is kept between calls. -/
structure Kept (k₀ k : Kernel) (free : List Block) (held : List (Block × Word)) : Prop where
  tiled : Tiled k free (held.map Prod.fst)
  usable : ∀ p ∈ held, p.2.toNat + 0x100 ≤ p.1.size
  same : SameElse k₀ k

theorem Kept.serves {held : List (Block × Word)} {r : Kernel × Word} (h : Kept k₀ k free held)
    (hr : Serves k free (held.map Prod.fst) n r) : ∃ free' held', Kept k₀ r.1 free' held' ∧
      handOut r.2 n (held.map fun p => (payload p.1, p.2)) =
        held'.map fun p => (payload p.1, p.2) := by
  rcases hr with ⟨_, rfl⟩ | ⟨b, free', k', rfl, htiled, hsame, hle⟩
  · exact ⟨free, held, ⟨h.tiled.start, h.usable, h.same.trans (sameElse_kheapStart k)⟩, rfl⟩
  · refine ⟨free', (b, n) :: held, ⟨htiled, List.forall_mem_cons.mpr ⟨hle, h.usable⟩,
      h.same.trans hsame⟩, ?_⟩
    exact if_neg (payload_ne_zero (htiled.placed b List.mem_cons_self))

/-- The calls on an arena with room for a header. -/
theorem Calls.kept {live : List (Word × Word)} (hu : Unused k₀)
    (hroom : k₀.arena.toNat + 0x100 ≤ k₀.arenaEnd.toNat) (h : Calls k₀ k live) :
    ∃ free held, Kept k₀ k free held ∧ live = held.map fun p => (payload p.1, p.2) := by
  induction h with
  | start => exact ⟨_, [], ⟨.untouched hu.init hu.pos hu.align.1 hroom, nofun, .refl _⟩, rfl⟩
  | kalloc _ n hn ih =>
    obtain ⟨free, held, hkept, rfl⟩ := ih
    exact hkept.serves (hkept.tiled.serves_kalloc (by omega))
  | kallocTop _ n hn ih =>
    obtain ⟨free, held, hkept, rfl⟩ := ih
    refine hkept.serves (hkept.tiled.serves_kallocTop ?_ (by omega))
    rw [hkept.same.arenaEnd_eq]
    exact hu.align.2
  | kfree _ ih =>
    obtain ⟨free, held, hkept, heq⟩ := ih
    obtain ⟨l, r, rfl, rfl, hr⟩ := List.append_eq_map_iff.mp heq
    obtain ⟨⟨b, n⟩, r, rfl, hb, rfl⟩ := List.map_eq_cons_iff.mp hr
    cases hb
    have hperm : ((l ++ (b, n) :: r).map Prod.fst).Perm (b :: (l ++ r).map Prod.fst) :=
      List.perm_middle.map Prod.fst
    obtain ⟨htiled, hsame⟩ := (hkept.tiled.perm hperm).kfree
    refine ⟨_, l ++ r, ⟨htiled, fun p hp => hkept.usable p ?_, hkept.same.trans hsame⟩, ?_⟩
    · exact ((List.sublist_cons_self _ r).append_left l).subset hp
    · rw [List.map_append]

/-- With no free block large enough both kinds of request fail. -/
theorem fails_of_small (hs : Seg k.kheapStart.khdr k.kheapStart.kfreelist free 0)
    (hlen : free.length < units) (hall : ∀ b ∈ free, b.size < (Kernel.blockSize n).toNat) :
    k.kalloc n = (k.kheapStart, 0) ∧ k.kallocTop n = (k.kheapStart, 0) := by
  have hno {p s : List Block} {b : Block} (heq : free = p ++ b :: s) : ¬(Kernel.blockSize n).toNat ≤ b.size :=
    Nat.not_le.mpr (hall b (heq ▸ List.mem_append_right _ List.mem_cons_self))
  constructor
  · rcases firstFit_walk (n := Kernel.blockSize n) hs hlen none with ⟨_, hwalk⟩ | ⟨p, b, s, heq, _, hb, _⟩
    · simp [Kernel.kalloc, hwalk]
    · exact absurd hb (hno heq)
  · rcases lastFit_walk (n := Kernel.blockSize n) hs hlen none none with ⟨_, hwalk⟩ | ⟨p, b, s, heq, hb, _⟩
    · simp [Kernel.kallocTop, hwalk]
    · exact absurd hb (hno heq)

/-- An arena with no room for a header serves no request. -/
theorem Calls.small {live : List (Word × Word)} (hu : Unused k₀)
    (hroom : k₀.arenaEnd.toNat < k₀.arena.toNat + 0x100) (h : Calls k₀ k live) :
    live = [] ∧ k.kheapStart = k₀.kheapStart := by
  have hchain := untouched_chain hu.init hu.pos (BitVec.le_def.mp hu.order)
  have hfails {k : Kernel} {n : Word} (heq : k.kheapStart = k₀.kheapStart) (hn : n.toNat < 2 ^ 31) :
      k.kalloc n = (k₀.kheapStart, 0) ∧ k.kallocTop n = (k₀.kheapStart, 0) := by
    have hsize := toNat_blockSize (n := n) (by omega)
    rw [← heq] at hchain ⊢
    refine fails_of_small hchain (show 1 < units by decide) (List.forall_mem_singleton.mpr ?_)
    show k₀.arenaEnd.toNat - k₀.arena.toNat < _
    omega
  have hstart : k₀.kheapStart.kheapStart = k₀.kheapStart :=
    kheapStart_of_init (kheapInit_kheapStart k₀)
  induction h with
  | start => exact ⟨rfl, rfl⟩
  | kalloc _ n hn ih =>
    rw [(hfails ih.2 hn).1]
    exact ⟨ih.1, hstart⟩
  | kallocTop _ n hn ih =>
    rw [(hfails ih.2 hn).2]
    exact ⟨ih.1, hstart⟩
  | kfree _ ih => exact absurd ih.1 (by simp)

/-- The free and live blocks, and what a request can count on. -/
structure Tiling (k₀ k : Kernel) (free : List Block) (live : List (Word × Word)) : Prop where
  chain : Seg k.kheapStart.khdr k.kheapStart.kfreelist free 0
  gaps : free.Pairwise fun a b => a.stop < b.start
  apart : (free ++ live.map fun p => k.block p.1).Pairwise Block.Apart
  tiles : ∀ x, Covers (free ++ live.map fun p => k.block p.1) x ↔
    k₀.arena.toNat ≤ x ∧ x < k₀.arenaEnd.toNat
  usable : ∀ p ∈ live, p.2.toNat + 0x100 ≤ (k.block p.1).size
  fails : ∀ n : Word, n.toNat < 2 ^ 31 → (k.kalloc n).2 = 0 ∨ (k.kallocTop n).2 = 0 →
    ∀ b ∈ free, b.size < 2 ^ 8 * ((n.toNat + 0xFF) / 2 ^ 8) + 0x100
  whole : live = [] → free = [⟨k₀.arena.toNat, k₀.arenaEnd.toNat - k₀.arena.toNat⟩]

theorem Kept.block_eq {held : List (Block × Word)} (h : Kept k₀ k free held) {p : Block × Word}
    (hp : p ∈ held) : k.block (payload p.1) = p.1 := by
  have hmem : p.1 ∈ held.map Prod.fst := List.mem_map_of_mem hp
  have hsize := h.tiled.size _ hmem
  rw [kheapStart_of_init (h.tiled.init (List.ne_nil_of_mem hmem))] at hsize
  rw [Kernel.block, payload_sub, hsize, toNat_addr (h.tiled.placed _ hmem).start_lt]

theorem Serves.fails {r : Kernel × Word} (h : Serves k free live n r) (hn : n.toNat < 2 ^ 31)
    (hr : r.2 = 0) : ∀ b ∈ free, b.size < 2 ^ 8 * ((n.toNat + 0xFF) / 2 ^ 8) + 0x100 := by
  rw [← toNat_blockSize (by omega)]
  rcases h with ⟨hall, _⟩ | ⟨b, _, _, rfl, htiled, _⟩
  · exact hall
  · exact absurd hr (payload_ne_zero (htiled.placed b List.mem_cons_self))

theorem Kept.tiling {held : List (Block × Word)} (h : Kept k₀ k free held) (hu : Unused k₀)
    (hroom : k₀.arena.toNat + 0x100 ≤ k₀.arenaEnd.toNat) :
    Tiling k₀ k free (held.map fun p => (payload p.1, p.2)) := by
  have htiles := h.tiled.tiles
  rw [h.same.arena_eq, h.same.arenaEnd_eq] at htiles
  have hblocks : (held.map fun p => (payload p.1, p.2)).map (fun p => k.block p.1) =
      held.map Prod.fst := by
    rw [List.map_map]
    exact List.map_congr_left fun p hp => h.block_eq hp
  refine ⟨h.tiled.list.chain, h.tiled.list.spaced.gaps, ?_, fun x => ?_,
    List.forall_mem_map.mpr fun p hp => ?_, fun n hn hr => ?_, ?_⟩
  · rw [hblocks]
    exact List.pairwise_append.mpr ⟨h.tiled.list.spaced.gaps.imp fun hgap => .inl (Nat.le_of_lt hgap),
      h.tiled.apart, fun b hb c hc => h.tiled.apart_free c hc b hb⟩
  · rw [hblocks, covers_append, htiles]
  · rw [h.block_eq hp]
    exact h.usable p hp
  · have hend : k.arenaEnd.toNat % 4 = 0 := h.same.arenaEnd_eq ▸ hu.align.2
    rcases hr with hr | hr
    · exact (h.tiled.serves_kalloc (by omega)).fails hn hr
    · exact (h.tiled.serves_kallocTop hend (by omega)).fails hn hr
  · intro hnil
    rw [List.map_eq_nil_iff.mp hnil] at htiles
    refine h.tiled.list.spaced.eq_of_covers ⟨?_, List.pairwise_singleton _ _⟩ fun x => ?_
    · exact List.forall_mem_singleton.mpr (show 0 < k₀.arenaEnd.toNat - k₀.arena.toNat by omega)
    · have hx := htiles x
      simp only [List.map_nil, covers_nil, or_false] at hx
      rw [hx, covers_cons]
      simp only [Block.Has, Block.stop, covers_nil, or_false]
      omega

/-- After any calls on any arena free and live blocks tile it. -/
theorem calls_tile {live : List (Word × Word)} (hu : Unused k₀) (h : Calls k₀ k live) :
    ∃ free, Tiling k₀ k free live := by
  by_cases hroom : k₀.arena.toNat + 0x100 ≤ k₀.arenaEnd.toNat
  · obtain ⟨free, held, hkept, rfl⟩ := h.kept hu hroom
    exact ⟨free, hkept.tiling hu hroom⟩
  · obtain ⟨rfl, heq⟩ := h.small hu (Nat.not_le.mp hroom)
    have hchain := untouched_chain hu.init hu.pos (BitVec.le_def.mp hu.order)
    refine ⟨_, heq ▸ hchain, List.pairwise_singleton _ _, List.pairwise_singleton _ _, fun x => ?_,
      nofun, fun n _ _ => List.forall_mem_singleton.mpr ?_, fun _ => rfl⟩
    · rw [List.map_nil, List.append_nil, covers_cons]
      simp only [Block.Has, Block.stop, covers_nil, or_false]
      omega
    · show k₀.arenaEnd.toNat - k₀.arena.toNat < _
      omega

/-- An arena of one page, from which requests are served at both ends. -/
theorem calls_tile_page :
    let k₀ : Kernel := { arena := 0x20040000, arenaEnd := 0x20041000 }
    let k₁ := (k₀.kalloc 5).1
    Unused k₀ ∧ ∃ free, Tiling k₀ (k₁.kallocTop 0x200).1 free
      (handOut (k₁.kallocTop 0x200).2 0x200 (handOut (k₀.kalloc 5).2 5 [])) := by
  intro k₀ k₁
  have hu : Unused k₀ := ⟨rfl, by decide, by decide, by decide⟩
  exact ⟨hu, calls_tile hu (.kallocTop (.kalloc .start 5 (by decide)) 0x200 (by decide))⟩

theorem Tiled.kalloc_snd (h : Tiled k free live) (hn : n.toNat ≤ 2 ^ 32 - 0x200) :
    (k.kalloc n).2 =
      ((firstFit 0x200 (Kernel.blockSize n).toNat free).map fun r => payload r.1).getD 0 := by
  rcases h.kalloc hn with ⟨hfit, heq⟩ | ⟨b, _, _, hfit, heq, _⟩
  · rw [hfit, heq]
    rfl
  · rw [hfit, heq]
    rfl

theorem Kept.covers_free {held : List (Block × Word)} (h : Kept k₀ k free held) (x : Nat) :
    Covers free x ↔ (k₀.arena.toNat ≤ x ∧ x < k₀.arenaEnd.toNat) ∧
      ¬Covers (held.map fun p => k.block (payload p.1)) x := by
  have htiles := h.tiled.tiles x
  rw [h.same.arena_eq, h.same.arenaEnd_eq] at htiles
  rw [List.map_congr_left fun p hp => h.block_eq hp, ← htiles]
  refine ⟨fun hfree => ⟨.inl hfree, ?_⟩, fun ⟨hor, hnot⟩ => hor.resolve_right hnot⟩
  rintro ⟨b, hb, hx⟩
  obtain ⟨c, hc, hcx⟩ := hfree
  exact (h.tiled.apart_free b hb c hc).not_has hcx hx

/-- What a request is given depends on which bytes of the arena are live and not on how the
    calls came to that. -/
theorem kalloc_eq_of_live {k' : Kernel} {live live' : List (Word × Word)} (hu : Unused k₀)
    (h : Calls k₀ k live) (h' : Calls k₀ k' live')
    (hlive : ∀ x, Covers (live.map fun p => k.block p.1) x ↔
      Covers (live'.map fun p => k'.block p.1) x) (hn : n.toNat < 2 ^ 31) :
    (k.kalloc n).2 = (k'.kalloc n).2 := by
  by_cases hroom : k₀.arena.toNat + 0x100 ≤ k₀.arenaEnd.toNat
  · obtain ⟨free, held, hk, rfl⟩ := h.kept hu hroom
    obtain ⟨free', held', hk', rfl⟩ := h'.kept hu hroom
    have heq : free' = free := by
      refine hk'.tiled.list.spaced.eq_of_covers hk.tiled.list.spaced fun x => ?_
      have hx := hlive x
      rw [List.map_map, List.map_map] at hx
      rw [hk.covers_free, hk'.covers_free]
      exact and_congr_right fun _ => not_congr hx.symm
    subst heq
    rw [hk.tiled.kalloc_snd (by omega), hk'.tiled.kalloc_snd (by omega)]
  · have hsmall := Nat.not_le.mp hroom
    rw [← kalloc_kheapStart, (h.small hu hsmall).2, ← (h'.small hu hsmall).2, kalloc_kheapStart]

/-- A block that has been released leaves no trace. -/
theorem kalloc_eq_of_live_page :
    let k₀ : Kernel := { arena := 0x20040000, arenaEnd := 0x20041000 }
    (k₀.kalloc 9).2 = (((k₀.kalloc 5).1.kfree (k₀.kalloc 5).2).kalloc 9).2 := by
  intro k₀
  have hne : ¬(k₀.kalloc 5).2 = 0 := by decide +kernel
  have hu : Unused k₀ := ⟨rfl, by decide, by decide, by decide⟩
  have h : Calls k₀ (k₀.kalloc 5).1 (handOut (k₀.kalloc 5).2 5 []) := .kalloc .start 5 (by decide)
  rw [handOut, if_neg hne, ← List.nil_append [_]] at h
  exact kalloc_eq_of_live hu .start (.kfree h) (fun _ => by simp) (by decide)

end

end DmaCpu.Xv6
