-- SUMMARY: Power cuts inside a sync, over any number of boots.
import Mathlib.Algebra.BigOperators.Ring.Finset
import DmaCpu.Kflash.Persist

/-!
# Power cuts

A header that is only ever torn on the way to or from the erased state has, next to
the bits of the right header for its image, some more bits set. It is staged only if
it has none, and a further torn erase cannot take any away. That is the invariant of
the slot; the one of the machine is that the sectors not marked dirty are right
whenever the next burn is incremental.
-/
namespace DmaCpu.Kflash

open Nor (Flash Op Below Torn Crash)

/-- What a power cut during a sync may leave in the slot. -/
def SyncCut (c : Config) (s : State) (f : Flash 32) : Prop :=
  Crash (if path c s = .burns then burn c s else []) s.flash f

/-- The life of a board: writes, syncs, and power cuts between and inside them, each
    followed by a boot from a slot that meets `ok`. -/
inductive Life (c : Config) (ok : Flash 32 → Prop) (f : Flash 32) : State → Prop where
  | start : Life c ok f (boot c f)
  | write {s : State} (blockno : Word) (data : Nat → Word) :
      Life c ok f s → bread c blockno = true → Life c ok f (writeBlock s blockno data)
  | sync {s : State} : Life c ok f s → Life c ok f (sync c s).2
  | reset {s : State} : Life c ok f s → ok s.flash → Life c ok f (boot c s.flash)
  | cut {s : State} {g : Flash 32} : Life c ok f s → SyncCut c s g → ok g → Life c ok f (boot c g)

/-- The two checks at boot agree on the slot: the firmware stages it, or the kernel
    burns it whole. -/
def Agree (c : Config) (f : Flash 32) : Prop := (stage c f).isSome = true ∨ slotGen c f = 0

/-- After the cut the slot is rejected, or staged as before, or as the RAM disk. -/
def Atomic (c : Config) (s : State) (f : Flash 32) : Prop :=
  stage c f = none ∨ stage c f = stage c s.flash ∨ stage c f = some (c.contents s.disk)

/-! ## Headers -/

/-- The header has all the bits of the right one for the image. -/
structure Above (c : Config) (f : Flash 32) : Prop where
  magic : Below fsMagic (f 0)
  size : Below c.diskSize (f 2)
  sum : Below (c.checksum (image f)) (f 3)
  gold : Below c.goldsum (f 4)

section

variable {c : Config} {f f' : Flash 32} {s : State}

theorem Above.of_ones (h : ∀ x < sectorWords, f x = BitVec.allOnes 32) : Above c f where
  magic := h 0 (by decide) ▸ Below.allOnes _
  size := h 2 (by decide) ▸ Below.allOnes _
  sum := h 3 (by decide) ▸ Below.allOnes _
  gold := h 4 (by decide) ▸ Below.allOnes _

theorem Above.of_stage (h : (stage c f).isSome = true) : Above c f := by
  obtain ⟨l, hl⟩ := Option.isSome_iff_exists.mp h
  have hslot : c.fsslot ≠ 0 := by
    intro h0
    rw [stage, if_pos h0] at hl
    cases hl
  obtain ⟨⟨h0, h2, h4⟩, h3, _⟩ := (stage_eq_some hslot).mp hl
  exact ⟨h0 ▸ Below.refl _, h2 ▸ Below.refl _, h3 ▸ Below.refl _, h4 ▸ Below.refl _⟩

/-- A header that has gained bits over the same image is staged only if it was. -/
theorem Above.stage_of_gained (h : Above c f) (himage : image f' = image f)
    (hgain : ∀ x, Below (f x) (f' x)) : stage c f' = none ∨ stage c f' = stage c f := by
  by_cases hslot : c.fsslot = 0
  · left
    rw [stage, if_pos hslot]
  · cases hstage : stage c f' with
    | none => exact .inl rfl
    | some l =>
      right
      obtain ⟨⟨h0, h2, h4⟩, h3, hl⟩ := (stage_eq_some hslot).mp hstage
      have hback {a : Word} {x : Nat} (hbelow : Below a (f x)) (heq : f' x = a) : f x = a :=
        Below.antisymm (heq ▸ hgain x) hbelow
      rw [himage] at h3 hl
      exact ((stage_eq_some hslot).mpr ⟨⟨hback h.magic h0, hback h.size h2, hback h.gold h4⟩,
        (hback h.sum h3.symm).symm, hl⟩).symm

theorem Above.gained (h : Above c f) (himage : image f' = image f)
    (hgain : ∀ x, Below (f x) (f' x)) : Above c f' where
  magic i hi := hgain 0 i (h.magic i hi)
  size i hi := hgain 2 i (h.size i hi)
  sum i hi := hgain 3 i (h.sum i (himage ▸ hi))
  gold i hi := hgain 4 i (h.gold i hi)

/-- A header page that is not erased to its end keeps the bits it had. -/
theorem cut_erase (h : (Op.erase 0 sectorWords).Cut f f') :
    image f' = image f ∧ ∀ x, Below (f x) (f' x) := by
  constructor
  · funext i
    exact h.of_not_covers fun hc => by rw [Op.Covers] at hc; omega
  · intro x
    refine (h x).below (Below.refl _) ?_
    show Below (f x) (if _ then BitVec.allOnes 32 else f x)
    split
    · exact Below.allOnes _
    · exact Below.refl _

end

/-! ## One sync -/

structure Coherent (c : Config) (s : State) : Prop where
  above : Above c s.flash
  gen : slotGen c s.flash = s.gen
  base : s.gen ≠ 0 → ∀ i < c.nsect, ¬s.dirty.getLsbD i = true → SameSector i (image s.flash) s.disk

section

variable {c : Config} {f : Flash 32} {s : State}

/-- Before the header page is programmed the image is the RAM disk. -/
theorem Coherent.contents_unsealed (hc : c.Sectored) (h : Coherent c s) :
    c.contents (image (unsealed c s)) = c.contents s.disk := by
  rw [hc.contents_eq_iff]
  intro i hi
  by_cases hmem : i ∈ burnt c s
  · exact unsealed_burnt hmem
  · have hnot := hmem
    rw [mem_burnt, not_and, not_or, full, decide_eq_true_iff, h.gen, or_iff_right (not_not.mpr rfl)]
      at hnot
    exact (unsealed_kept hmem).trans (h.base (hnot hi).1 i hi (hnot hi).2)

/-- The slot once the programming of the header page has begun: the image is the RAM
    disk, and the header has at least the bits of the right one. -/
structure Sealing (c : Config) (s : State) (f : Flash 32) : Prop where
  image : image f = image (unsealed c s)
  header : ∀ x < pageWords, Below (header c s x) (f x)

theorem sealing_of_crash (h : Crash [.program 0 pageWords (header c s)] (unsealed c s) f) :
    Sealing c s f := by
  have hones {x : Nat} (hx : x < pageWords) : unsealed c s x = BitVec.allOnes 32 :=
    unsealed_header (Nat.lt_trans hx (by decide))
  have hprog {x : Nat} (hx : x < pageWords) :
      (Op.program 0 pageWords (header c s)).apply (unsealed c s) x = header c s x := by
    rw [← run_burn, burn_header hx]
  cases h with
  | cut hcut =>
    constructor
    · funext i
      exact hcut.of_not_covers fun hc => by rw [Op.Covers, pageWords, sectorWords] at hc; omega
    · intro x hx
      have htorn := hcut x
      rw [hprog hx, hones hx] at htorn
      exact htorn.below (Below.allOnes _) (Below.refl _)
  | next hnext =>
    cases hnext
    exact ⟨image_program_header _ _, fun x hx => (hprog hx).symm ▸ Below.refl _⟩

theorem Sealing.above (hc : c.Sectored) (h : Coherent c s) (hs : Sealing c s f) : Above c f where
  magic := hs.header 0 (by decide)
  size := hs.header 2 (by decide)
  sum := by
    rw [hs.image, Config.checksum_congr (h.contents_unsealed hc)]
    exact hs.header 3 (by decide)
  gold := hs.header 4 (by decide)

theorem Sealing.stage (hc : c.Sectored) (hp : c.Persistent) (h : Coherent c s)
    (hs : Sealing c s f) : stage c f = none ∨ stage c f = some (c.contents s.disk) := by
  cases hstage : Kflash.stage c f with
  | none => exact .inl rfl
  | some l =>
    have hl := ((stage_eq_some hp.slot).mp hstage).2.2
    rw [hs.image, h.contents_unsealed hc] at hl
    exact .inr (by rw [hl])

/-- A cut anywhere in a burn. -/
theorem Coherent.crash_burn (hc : c.Sectored) (hp : c.Persistent) (h : Coherent c s)
    (hcrash : Crash (burn c s) s.flash f) : Above c f ∧ Atomic c s f := by
  cases hcrash with
  | cut hcut =>
    obtain ⟨himage, hgain⟩ := cut_erase hcut
    exact ⟨h.above.gained himage hgain,
      (h.above.stage_of_gained himage hgain).imp_right .inl⟩
  | next hnext =>
    rcases hnext.append with hsectors | hpage
    · -- the header is erased as long as sectors are burnt
      have hones : ∀ x < sectorWords, f x = BitVec.allOnes 32 := by
        intro x hx
        rw [hsectors.of_not_covers fun op hop hcov => by
          obtain ⟨i, _, hle, _⟩ := covers_sectors hop hcov
          omega]
        exact if_pos ⟨Nat.zero_le x, by omega⟩
      refine ⟨.of_ones hones, .inl (Option.eq_none_iff_forall_ne_some.mpr fun l hl => ?_)⟩
      have hmagic := ((stage_eq_some hp.slot).mp hl).1.1
      rw [hones 0 (by decide)] at hmagic
      exact absurd hmagic (by decide)
    · have hs := sealing_of_crash hpage
      exact ⟨hs.above hc h, (hs.stage hc hp h).imp_right .inr⟩

theorem persistent_of_path (h : path c s = .burns) : c.Persistent := by
  constructor
  · intro hexec
    rw [path, if_pos hexec] at h
    cases h
  · intro hslot
    rw [path] at h
    split at h
    · cases h
    · cases h

theorem Coherent.syncCut (hc : c.Sectored) (h : Coherent c s) (hcut : SyncCut c s f) :
    Above c f ∧ Atomic c s f := by
  rw [SyncCut] at hcut
  split at hcut
  next hpath => exact h.crash_burn hc (persistent_of_path hpath) hcut
  next =>
    cases hcut
    exact ⟨h.above, .inr (.inl rfl)⟩

/-! ## Any number of boots -/

theorem Coherent.boot (hc : c.Sectored) (habove : Above c f) (hagree : Agree c f) :
    Coherent c (boot c f) where
  above := habove
  gen := rfl
  base hgen i hi _ :=
    rightBase_of_stage (W := 0) hc (hagree.resolve_right hgen) i hi (by simp)

theorem Coherent.write (hc : c.Sectored) (h : Coherent c s) (blockno : Word) (data : Nat → Word) :
    Coherent c (writeBlock s blockno data) where
  above := h.above
  gen := h.gen
  base hgen i hi hd := by
    rw [writeBlock, BitVec.getLsbD_or, Bool.or_eq_true, not_or] at hd
    exact (h.base hgen i hi hd.1).trans (sameSector_writeBlock hc s data hi hd.2).symm

theorem Coherent.burned (hc : c.Sectored) (hp : c.Persistent) (h : Coherent c s) :
    Coherent c (burned c s) where
  above := by
    have hs : Sealing c s (Nor.run (burn c s) s.flash) := by
      rw [run_burn]
      exact sealing_of_crash (.next (.done _))
    exact hs.above hc h
  gen := slotGen_burn hp
  base _ i hi _ := by
    have hsame := hc.contents_eq_iff.mp (h.contents_unsealed hc) i hi
    rw [← image_burn] at hsame
    exact hsame

theorem Coherent.sync (hc : c.Sectored) (h : Coherent c s) : Coherent c (sync c s).2 := by
  by_cases hp : c.Persistent
  · by_cases hburn : full c s = true ∨ s.dirty ≠ 0
    · rw [sync_burns hp hburn]
      exact h.burned hc hp
    · obtain ⟨hfull, hd⟩ := not_or.mp hburn
      rw [sync_unchanged hp hfull (not_not.mp hd)]
      exact h
  · rw [(sync_refused hp s).2]
    exact h

theorem Life.coherent (hc : c.Sectored) {f₀ : Flash 32}
    (h₀ : (stage c f₀).isSome = true ∨ ∀ x < sectorWords, f₀ x = BitVec.allOnes 32)
    (h : Life c (Agree c) f₀ s) : Coherent c s := by
  induction h with
  | start =>
    rcases h₀ with hstage | hones
    · exact .boot hc (.of_stage hstage) (.inl hstage)
    · refine .boot hc (.of_ones hones) (.inr ?_)
      by_contra hgen
      have hmagic := (headerOk_of_slotGen hgen).1
      rw [hones 0 (by decide)] at hmagic
      exact absurd hmagic (by decide)
  | write blockno data _ _ ih => exact ih.write hc blockno data
  | sync _ ih => exact ih.sync hc
  | reset _ hok ih => exact .boot hc ih.above hok
  | cut _ hcut hok ih => exact .boot hc (ih.syncCut hc hcut).1 hok

/-- If the two checks agree at every boot, a sync that is cut leaves the old image, the
    new one, or a slot that is rejected. -/
theorem syncs_atomic (hc : c.Sectored) {f₀ : Flash 32}
    (h₀ : (stage c f₀).isSome = true ∨ ∀ x < sectorWords, f₀ x = BitVec.allOnes 32)
    (h : Life c (Agree c) f₀ s) (hcut : SyncCut c s f) : Atomic c s f :=
  ((h.coherent hc h₀).syncCut hc hcut).2

end

theorem erased_written_atomic :
    SyncCut oneSector (writeBlock (boot oneSector fun _ => BitVec.allOnes 32) 0 fun _ => 7)
        (fun _ => BitVec.allOnes 32) ∧
      Atomic oneSector (writeBlock (boot oneSector fun _ => BitVec.allOnes 32) 0 fun _ => 7)
        (fun _ => BitVec.allOnes 32) := by
  have hlife : Life oneSector (Agree oneSector) (fun _ => BitVec.allOnes 32) _ :=
    .write 0 (fun _ => 7) .start (by decide)
  have hcut : SyncCut oneSector (writeBlock (boot oneSector fun _ => BitVec.allOnes 32) 0 fun _ => 7)
      (fun _ => BitVec.allOnes 32) := by
    exact .cut fun _ _ => .inl rfl
  exact ⟨hcut, syncs_atomic oneSector_sectored (.inr fun _ _ => rfl) hlife hcut⟩

/-! ## A mixture -/

/-- Ones at some words, zeros elsewhere. -/
def marks (ks : List Nat) (i : Nat) : Word := if i ∈ ks then 1 else 0

/-- Two sectors; in the build's disk word 1025 is set. -/
def twoSectors : Config where
  fsslot := 0x10300000
  kflashArm := 0
  diskSize := 8192
  goldsum := 7
  golden := marks [1025]

/-- The slot with a checksum, over an image with the words 0 and 1024 set. -/
def persisted (sum : Word) : Flash 32 := fun x =>
  if x < sectorWords then [fsMagic, 1, 8192, sum, 7].getD x 0 else marks [0, 1024] (x - sectorWords)

/-- The board after the cut, with a block of zeros written where the golden disk has
    zeros. -/
def resumed : State := writeBlock (boot twoSectors (persisted 3)) 0 fun _ => 0

/-- The first words of the two sectors. -/
def firstWords (l : List Word) : Word × Word := (l.getD 0 0, l.getD 1024 0)

/-- The header erase was cut when it had set one bit of the checksum. -/
theorem torn_persisted : (Op.erase 0 sectorWords).Cut (persisted 2) (persisted 3) := by
  intro x
  match x with
  | 3 => exact Torn.of_below (Below.or (2 : Word) 1)
  | 0 | 1 | 2 => exact fun _ => .inl rfl
  | n + 4 => exact fun _ => .inl rfl

/-- A cut that only spoils the checksum leaves a header that the kernel trusts over the
    golden disk. The next sync burns the first sector alone, and since the two sectors
    have the same sum the slot is staged: the first sector is the one of the RAM disk,
    the second the one of the old image. -/
theorem mixture_staged :
    (stage twoSectors (persisted 2)).isSome = true ∧
      ∃ s f, Life twoSectors (fun _ => True) (persisted 2) s ∧ SyncCut twoSectors s f ∧
        ¬Atomic twoSectors s f ∧ stage twoSectors f ≠ none ∧
          stage twoSectors f ≠ stage twoSectors (persisted 2) := by
  have hold : (stage twoSectors (persisted 2)).map firstWords = some (1, 1) := by decide +kernel
  have hmix : (stage twoSectors (Nor.run (burn twoSectors resumed) resumed.flash)).map firstWords =
      some (0, 1) := by
    decide +kernel
  have hcut : SyncCut twoSectors (writeBlock (boot twoSectors (persisted 2)) 0 fun _ => 0)
      (persisted 3) := by
    exact .cut torn_persisted
  have hlife : Life twoSectors (fun _ => True) (persisted 2) resumed :=
    .write 0 _ (.cut (.write 0 _ .start (by decide)) hcut trivial) (by decide)
  have hsync : SyncCut twoSectors resumed (Nor.run (burn twoSectors resumed) resumed.flash) := by
    exact .all _ _
  refine ⟨?_, resumed, _, hlife, hsync, ?_, ?_, ?_⟩
  · cases h : stage twoSectors (persisted 2) with
    | none => rw [h] at hold; cases hold
    | some l => rfl
  · rintro (h | h | h) <;> rw [h] at hmix <;> revert hmix <;> decide +kernel
  · intro h
    rw [h] at hmix
    cases hmix
  · intro h
    rw [h, hold] at hmix
    cases hmix

end DmaCpu.Kflash
