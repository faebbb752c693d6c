-- SUMMARY: What a sync leaves in the slot, sector by sector, and when the slot is then staged.
import DmaCpu.Kflash.Slot

/-!
# Burning

Two memories are compared sector by sector: `SameSector i d d'` says that they agree
on sector `i` of the disk. A burn makes the sectors that it burns equal to the RAM
disk and keeps the others.
-/
namespace DmaCpu.Kflash

open Nor (Flash Op)

/-- The disk is made of whole sectors, one for each bit of `fs_dirty` at most. -/
structure Config.Sectored (c : Config) : Prop where
  whole : c.diskSize.toNat % 4096 = 0
  few : c.nsect ≤ 32

/-- The board can burn, and has a slot. -/
structure Config.Persistent (c : Config) : Prop where
  executor : c.kflashArm ≠ kflashNoexec
  slot : c.fsslot ≠ 0

def SameSector (i : Nat) (d d' : Nat → Word) : Prop :=
  ∀ j < sectorWords, d (sectorWords * i + j) = d' (sectorWords * i + j)

theorem SameSector.symm {i : Nat} {d d' : Nat → Word} (h : SameSector i d d') :
    SameSector i d' d := fun j hj => (h j hj).symm

theorem SameSector.trans {i : Nat} {d d' d'' : Nat → Word} (h : SameSector i d d')
    (h' : SameSector i d' d'') : SameSector i d d'' := fun j hj => (h j hj).trans (h' j hj)

theorem and_bit (w : Word) (i : Nat) : (w &&& ((1 : Word) <<< i) != 0) = w.getLsbD i := by
  have hone : (1 : Word) <<< i = BitVec.twoPow 32 i := rfl
  rw [hone, BitVec.and_twoPow]
  cases h : w.getLsbD i with
  | false => rfl
  | true =>
    have hlt := BitVec.lt_of_getLsbD h
    rw [bne_iff_ne]
    intro hzero
    have hbit := congrArg (·.getLsbD i) hzero
    simp [hlt] at hbit

namespace Config

variable {c : Config} {d d' : Nat → Word}

theorem Sectored.words_eq (h : c.Sectored) : c.words = sectorWords * c.nsect := by
  have hwhole := h.whole
  show c.diskSize.toNat / 4 = 1024 * (c.diskSize.toNat / 4096)
  omega

theorem contents_eq_iff : c.contents d = c.contents d' ↔ ∀ i < c.words, d i = d' i := by
  rw [contents, contents, List.map_inj_left]
  simp

/-- The disk is the same when all its sectors are. -/
theorem Sectored.contents_eq_iff (h : c.Sectored) :
    c.contents d = c.contents d' ↔ ∀ i < c.nsect, SameSector i d d' := by
  rw [Config.contents_eq_iff, h.words_eq, sectorWords]
  constructor
  · intro hall i hi j hj
    rw [sectorWords] at hj ⊢
    exact hall _ (by omega)
  · intro hall i hi
    have hsec := hall (i / 1024) (by omega) (i % 1024) (Nat.mod_lt i (by decide))
    rw [sectorWords, Nat.div_add_mod] at hsec
    exact hsec

theorem checksum_congr (h : c.contents d = c.contents d') : c.checksum d = c.checksum d' := by
  have hfold (d : Nat → Word) : c.checksum d = (c.contents d).foldl (· + ·) 0 := by
    rw [contents, List.foldl_map]
    rfl
  rw [hfold, hfold, h]

end Config

section

variable {c : Config} {f : Flash 32} {l : List Word}

/-- The part of the header that both checks look at. -/
def HeaderOk (c : Config) (f : Flash 32) : Prop :=
  f 0 = fsMagic ∧ f 2 = c.diskSize ∧ f 4 = c.goldsum

theorem stage_eq_some (hs : c.fsslot ≠ 0) :
    stage c f = some l ↔
      HeaderOk c f ∧ c.checksum (image f) = f 3 ∧ c.contents (image f) = l := by
  rw [stage, if_neg hs, HeaderOk]
  by_cases hok : f 0 = fsMagic ∧ f 2 = c.diskSize ∧ f 4 = c.goldsum
  · by_cases hsum : c.checksum (image f) = f 3
    · simp [hok, hsum]
    · simp [hsum]
  · rw [if_neg hok]
    exact ⟨(nomatch ·), fun h => absurd h.1 hok⟩

theorem slotGen_of_headerOk (hs : c.fsslot ≠ 0) (h : HeaderOk c f) : slotGen c f = f 1 := by
  obtain ⟨h0, h2, h4⟩ := h
  rw [slotGen, if_neg hs, if_neg]
  rintro (h | h | h)
  · exact h h0
  · exact h h2
  · exact h h4

theorem headerOk_of_slotGen (h : slotGen c f ≠ 0) : HeaderOk c f := by
  unfold slotGen at h
  split at h
  · exact absurd rfl h
  · split at h
    · exact absurd rfl h
    · rename_i hnot
      push Not at hnot
      exact hnot

theorem contents_staged (h : stage c f = some l) :
    c.contents (staged c f) = c.contents (image f) := by
  have hl : c.contents (image f) = l := by
    unfold stage at h
    split at h
    · cases h
    · split at h
      · split at h
        · exact Option.some.inj h
        · cases h
      · cases h
  rw [Config.contents_eq_iff, staged, h]
  intro i hi
  show l.getD i 0 = _
  rw [← hl, Config.contents, List.getD_eq_getElem?_getD, List.getElem?_map,
    List.getElem?_range hi]
  rfl

end

/-! ## Sectors -/

section

variable {d : Nat → Word} {i k x : Nat} {op : Op 32}

theorem covers_writeSector (hop : op ∈ flashWriteSector d i) (hx : op.Covers x) :
    sectorWords + sectorWords * i ≤ x ∧ x < sectorWords + sectorWords * i + sectorWords := by
  rcases List.mem_cons.mp hop with rfl | hop
  · exact hx
  · exact Nor.covers_pages hop hx

theorem run_writeSector (f : Flash 32) {j : Nat} (hj : j < sectorWords) :
    image (Nor.run (flashWriteSector d i) f) (sectorWords * i + j) = d (sectorWords * i + j) := by
  have hle : sectorWords + sectorWords * i ≤ sectorWords + (sectorWords * i + j) := by omega
  have hlt : sectorWords + (sectorWords * i + j) < sectorWords + sectorWords * i + sectorWords := by
    omega
  rw [image, flashWriteSector, Nor.run_cons, Nor.run_pages _ _ _ _ _ hle hlt]
  show (if _ then BitVec.allOnes 32 else _) &&& _ = _
  rw [if_pos ⟨hle, hlt⟩, BitVec.allOnes_and]
  congr 1
  omega

theorem covers_sectors {is : List Nat} (hop : op ∈ is.flatMap (flashWriteSector d))
    (hx : op.Covers x) : ∃ i ∈ is,
      sectorWords + sectorWords * i ≤ x ∧ x < sectorWords + sectorWords * i + sectorWords := by
  obtain ⟨i, hi, hop⟩ := List.mem_flatMap.mp hop
  exact ⟨i, hi, covers_writeSector hop hx⟩

/-- The sectors that are not burnt stay. -/
theorem run_sectors_of_not_mem {is : List Nat} (hk : k ∉ is) (f : Flash 32) :
    SameSector k (image (Nor.run (is.flatMap (flashWriteSector d)) f)) (image f) := by
  intro j hj
  apply Nor.run_of_not_covers
  intro op hop hc
  obtain ⟨i, hi, h₁, h₂⟩ := covers_sectors hop hc
  have hik : i = k := by
    rw [sectorWords] at h₁ h₂ hj
    omega
  exact hk (hik ▸ hi)

/-- The sectors that are burnt become those of the RAM disk. -/
theorem run_sectors_of_mem {is : List Nat} (hk : k ∈ is) (f : Flash 32) :
    SameSector k (image (Nor.run (is.flatMap (flashWriteSector d)) f)) d := by
  induction is generalizing f with
  | nil => cases hk
  | cons i is ih =>
    by_cases hmem : k ∈ is
    · exact ih hmem _
    · obtain rfl : k = i := (List.mem_cons.mp hk).resolve_right hmem
      exact (run_sectors_of_not_mem hmem _).trans fun j hj => run_writeSector f hj

theorem run_sectors_header (is : List Nat) (f : Flash 32) (hx : x < sectorWords) :
    Nor.run (is.flatMap (flashWriteSector d)) f x = f x := by
  apply Nor.run_of_not_covers
  intro op hop hc
  obtain ⟨i, _, h, _⟩ := covers_sectors hop hc
  omega

end

/-! ## The whole burn -/

section

variable {c : Config} {s : State} {i : Nat}

/-- The slot between the last sector and the header page. -/
def unsealed (c : Config) (s : State) : Flash 32 :=
  Nor.run ((burnt c s).flatMap (flashWriteSector s.disk)) ((Op.erase 0 sectorWords).apply s.flash)

theorem run_burn :
    Nor.run (burn c s) s.flash =
      (Op.program 0 pageWords (header c s)).apply (unsealed c s) := by
  rw [burn, List.cons_append, Nor.run_cons, Nor.run_append]
  rfl

theorem mem_burnt : i ∈ burnt c s ↔ i < c.nsect ∧ (full c s ∨ s.dirty.getLsbD i) := by
  rw [burnt, List.mem_filter, List.mem_range, Bool.or_eq_true, and_bit]

theorem image_erase_header (f : Flash 32) : image ((Op.erase 0 sectorWords).apply f) = image f := by
  funext i
  exact Op.apply_of_not_covers (fun h => by rw [Op.Covers] at h; omega) f

theorem image_program_header (f : Flash 32) (h : Nat → Word) :
    image ((Op.program 0 pageWords h).apply f) = image f := by
  funext i
  exact Op.apply_of_not_covers (fun h => by rw [Op.Covers, pageWords, sectorWords] at h; omega) f

theorem unsealed_header {x : Nat} (hx : x < sectorWords) :
    unsealed c s x = BitVec.allOnes 32 := by
  rw [unsealed, run_sectors_header _ _ hx]
  exact if_pos ⟨Nat.zero_le x, by omega⟩

theorem unsealed_burnt (hi : i ∈ burnt c s) : SameSector i (image (unsealed c s)) s.disk :=
  run_sectors_of_mem hi _

theorem unsealed_kept (hi : i ∉ burnt c s) : SameSector i (image (unsealed c s)) (image s.flash) := by
  have h := run_sectors_of_not_mem (d := s.disk) hi ((Op.erase 0 sectorWords).apply s.flash)
  rw [image_erase_header] at h
  exact h

theorem image_burn : image (Nor.run (burn c s) s.flash) = image (unsealed c s) := by
  rw [run_burn, image_program_header]

theorem burn_header {x : Nat} (hx : x < pageWords) :
    Nor.run (burn c s) s.flash x = header c s x := by
  rw [run_burn]
  show (if _ then unsealed c s x &&& _ else _) = _
  rw [if_pos ⟨Nat.zero_le x, by omega⟩, unsealed_header (by rw [pageWords] at hx; rw [sectorWords]; omega),
    BitVec.allOnes_and, Nat.sub_zero]

theorem headerOk_burn : HeaderOk c (Nor.run (burn c s) s.flash) :=
  ⟨burn_header (by decide), burn_header (by decide), burn_header (by decide)⟩

theorem slotGen_burn (hp : c.Persistent) : slotGen c (Nor.run (burn c s) s.flash) = s.gen + 1 := by
  rw [slotGen_of_headerOk hp.slot headerOk_burn]
  exact burn_header (by decide)

/-- A burnt slot is staged as the RAM disk exactly when the sectors that were not
    burnt were right. -/
theorem stage_burn (hc : c.Sectored) (hp : c.Persistent) :
    stage c (Nor.run (burn c s) s.flash) = some (c.contents s.disk) ↔
      ∀ i < c.nsect, i ∉ burnt c s → SameSector i (image s.flash) s.disk := by
  have hsum : Nor.run (burn c s) s.flash 3 = c.checksum s.disk := burn_header (by decide)
  rw [stage_eq_some hp.slot, hsum, image_burn, hc.contents_eq_iff]
  constructor
  · rintro ⟨_, _, h⟩ i hi hnot
    exact (unsealed_kept hnot).symm.trans (h i hi)
  · intro h
    have hall : ∀ i < c.nsect, SameSector i (image (unsealed c s)) s.disk := by
      intro i hi
      by_cases hmem : i ∈ burnt c s
      · exact unsealed_burnt hmem
      · exact (unsealed_kept hmem).trans (h i hi hmem)
    exact ⟨headerOk_burn, Config.checksum_congr (hc.contents_eq_iff.mpr hall), hall⟩

/-- The state after a burn. -/
def burned (c : Config) (s : State) : State :=
  { s with flash := Nor.run (burn c s) s.flash, dirty := 0, gen := s.gen + 1 }

theorem path_burns (hp : c.Persistent) (h : full c s = true ∨ s.dirty ≠ 0) : path c s = .burns := by
  rw [path, if_neg hp.executor, if_neg hp.slot, if_neg]
  rwa [not_and_or, not_not]

theorem sync_burns (hp : c.Persistent) (h : full c s = true ∨ s.dirty ≠ 0) :
    sync c s = (0, burned c s) := by
  rw [sync, path_burns hp h]
  rfl

theorem sync_unchanged (hp : c.Persistent) (hfull : ¬full c s = true) (hd : s.dirty = 0) :
    sync c s = (0, s) := by
  rw [sync, path, if_neg hp.executor, if_neg hp.slot, if_pos ⟨hfull, hd⟩]

theorem sync_refused (hp : ¬c.Persistent) (s : State) : (sync c s).1 ≠ 0 ∧ (sync c s).2 = s := by
  by_cases hexec : c.kflashArm = kflashNoexec
  · rw [sync, path, if_pos hexec]
    exact ⟨(by decide : (-19 : Int) ≠ 0), rfl⟩
  · have hslot : c.fsslot = 0 := by
      by_contra hslot
      exact hp ⟨hexec, hslot⟩
    rw [sync, path, if_neg hexec, if_pos hslot]
    exact ⟨(by decide : (-1 : Int) ≠ 0), rfl⟩

end

end DmaCpu.Kflash
