-- SUMMARY: When a successful sync makes the RAM disk the one that the next boot stages.
import DmaCpu.Kflash.Burn

/-!
# Persistence

`Since c f W F s` is a run of block writes and syncs since a boot from the slot `f`.
It keeps what the run has written, `W`, and whether a sync has burnt the slot whole,
`F`. The kernel takes the base of its incremental burns from the header alone, so a
slot that the firmware has rejected for its checksum is repaired only by a full burn,
or by writing every sector in which it differs from the golden disk.
-/
namespace DmaCpu.Kflash

open Nor (Flash Op)

inductive Since (c : Config) (f : Flash 32) : Word → Bool → State → Prop where
  | boot : Since c f 0 false (boot c f)
  | write {W : Word} {F : Bool} {s : State} (blockno : Word) (data : Nat → Word) :
      Since c f W F s → bread c blockno = true →
        Since c f (W ||| dirtyBit blockno) F (writeBlock s blockno data)
  | sync {W : Word} {F : Bool} {s : State} :
      Since c f W F s → Since c f W (F || s.gen == 0) (sync c s).2

/-- A sync that reports success leaves the RAM disk to the next boot. -/
def Restores (c : Config) (s : State) : Prop :=
  (sync c s).1 = 0 → stage c (sync c s).2.flash = some (c.contents s.disk)

/-! ## Block writes -/

theorem getLsbD_dirtyBit (blockno : Word) {i : Nat} (hi : i < 32) :
    (dirtyBit blockno).getLsbD i = decide ((blockno * 1024 / 4096).toNat = i) := by
  have htwo : dirtyBit blockno = BitVec.twoPow 32 (blockno * 1024 / 4096).toNat := rfl
  rw [htwo, BitVec.getLsbD_twoPow, ← Bool.decide_and, decide_eq_decide]
  omega

/-- A block lies in the sector whose bit is set. -/
theorem sameSector_writeBlock {c : Config} (hc : c.Sectored) (s : State) {blockno : Word}
    (data : Nat → Word) {i : Nat} (hi : i < c.nsect)
    (hbit : ¬(dirtyBit blockno).getLsbD i = true) :
    SameSector i (writeBlock s blockno data).disk s.disk := by
  rw [getLsbD_dirtyBit blockno (Nat.lt_of_lt_of_le hi hc.few), decide_eq_true_iff] at hbit
  have hblock : (blockno * 1024).toNat % 1024 = 0 := by
    show blockno.toNat * 1024 % 4294967296 % 1024 = 0
    omega
  have hsector : (blockno * 1024).toNat / 4096 ≠ i := hbit
  intro j hj
  rw [sectorWords] at hj ⊢
  exact if_neg fun h => by
    rw [blockWords] at h
    omega

/-! ## The run -/

structure Inv (c : Config) (f : Flash 32) (W : Word) (F : Bool) (s : State) : Prop where
  gen : slotGen c s.flash = s.gen
  logged : ∀ i, s.dirty.getLsbD i = true → W.getLsbD i = true
  unwritten : ∀ i < c.nsect, ¬W.getLsbD i = true → SameSector i s.disk (staged c f)
  untouched : ∀ i < c.nsect, ¬W.getLsbD i = true → F = false →
    SameSector i (image s.flash) (image f)
  clean : ∀ i < c.nsect, ¬s.dirty.getLsbD i = true → W.getLsbD i = true ∨ F = true →
    SameSector i (image s.flash) s.disk
  sealed : s.dirty = 0 → W ≠ 0 ∨ F = true → s.flash 3 = c.checksum s.disk
  fresh : W = 0 → F = false → s.flash = f

theorem eq_zero_of_bits {w : Word} (h : ∀ i, ¬w.getLsbD i = true) : w = 0 := by
  apply BitVec.eq_of_getLsbD_eq
  intro i _
  rw [Bool.eq_false_iff.mpr (h i)]
  exact BitVec.getLsbD_zero.symm

theorem or_eq_zero {a b : Word} (h : a ||| b = 0) : a = 0 ∧ b = 0 := by
  have hbit (i : Nat) : a.getLsbD i = false ∧ b.getLsbD i = false := by
    have hi := congrArg (·.getLsbD i) h
    simpa using hi
  exact ⟨eq_zero_of_bits fun i => by simp [(hbit i).1], eq_zero_of_bits fun i => by simp [(hbit i).2]⟩

namespace Inv

variable {c : Config} {f : Flash 32} {W : Word} {F : Bool} {s : State}

theorem full_iff (h : Inv c f W F s) : full c s = true ↔ s.gen = 0 := by
  rw [full, decide_eq_true_iff, h.gen]
  exact or_iff_right (not_not.mpr rfl)

theorem boot (c : Config) (f : Flash 32) : Inv c f 0 false (boot c f) where
  gen := rfl
  logged _ h := h
  unwritten _ _ _ _ _ := rfl
  untouched _ _ _ _ _ _ := rfl
  clean i _ _ h := by simp at h
  sealed _ h := by simp at h
  fresh _ _ := rfl

theorem write (hc : c.Sectored) (h : Inv c f W F s) (blockno : Word) (data : Nat → Word) :
    Inv c f (W ||| dirtyBit blockno) F (writeBlock s blockno data) := by
  have hor (w : Word) (i : Nat) : ¬(w ||| dirtyBit blockno).getLsbD i = true →
      ¬w.getLsbD i = true ∧ ¬(dirtyBit blockno).getLsbD i = true := by
    rw [BitVec.getLsbD_or, Bool.or_eq_true, not_or]
    exact id
  refine ⟨h.gen, ?_, ?_, ?_, ?_, ?_, ?_⟩
  · intro i hi
    rw [writeBlock, BitVec.getLsbD_or, Bool.or_eq_true] at hi
    rw [BitVec.getLsbD_or, Bool.or_eq_true]
    exact hi.imp_left (h.logged i)
  · intro i hi hW
    exact (sameSector_writeBlock hc s data hi (hor W i hW).2).trans
      (h.unwritten i hi (hor W i hW).1)
  · exact fun i hi hW => h.untouched i hi (hor W i hW).1
  · intro i hi hd hW
    obtain ⟨hdirty, hbit⟩ := hor s.dirty i hd
    rw [BitVec.getLsbD_or, Bool.or_eq_true, or_iff_left hbit] at hW
    exact (h.clean i hi hdirty hW).trans (sameSector_writeBlock hc s data hi hbit).symm
  · intro hd hW
    obtain ⟨hdirty, hbit⟩ := or_eq_zero hd
    have hsame : W ||| dirtyBit blockno = W := by
      rw [hbit]
      exact BitVec.or_zero
    rw [hsame] at hW
    refine (h.sealed hdirty hW).trans (Config.checksum_congr (hc.contents_eq_iff.mpr fun i hi => ?_))
    exact (sameSector_writeBlock hc s data hi (by rw [hbit]; simp)).symm
  · exact fun hW => h.fresh (or_eq_zero hW).1

theorem dirty_eq_zero (h : Inv c f W F s) (hW : W = 0) : s.dirty = 0 :=
  eq_zero_of_bits fun i hi => by
    have hbit := h.logged i hi
    rw [hW] at hbit
    simp at hbit

theorem burns (hp : c.Persistent) (h : Inv c f W F s) (hburn : full c s = true ∨ s.dirty ≠ 0) :
    Inv c f W (F || s.gen == 0) (burned c s) := by
  have hkept {i : Nat} (hi : i < c.nsect) (hnot : i ∉ burnt c s) :
      ¬s.dirty.getLsbD i = true ∧ (s.gen == 0) = false := by
    rw [mem_burnt, not_and, not_or, h.full_iff] at hnot
    exact ⟨(hnot hi).2, beq_false_of_ne (hnot hi).1⟩
  refine ⟨slotGen_burn hp, fun i hi => by simp [burned] at hi, h.unwritten, ?_, ?_, ?_, ?_⟩
  · intro i hi hW hF
    obtain ⟨hF, hgen⟩ := Bool.or_eq_false_iff.mp hF
    have hnot : i ∉ burnt c s := by
      rw [mem_burnt, h.full_iff]
      rintro ⟨_, hz | hd⟩
      · exact beq_eq_false_iff_ne.mp hgen hz
      · exact hW (h.logged i hd)
    show SameSector i (image (Nor.run (burn c s) s.flash)) _
    rw [image_burn]
    exact (unsealed_kept hnot).trans (h.untouched i hi hW hF)
  · intro i hi _ hW
    show SameSector i (image (Nor.run (burn c s) s.flash)) _
    rw [image_burn]
    by_cases hmem : i ∈ burnt c s
    · exact unsealed_burnt hmem
    · obtain ⟨hd, hgen⟩ := hkept hi hmem
      rw [hgen, Bool.or_false] at hW
      exact (unsealed_kept hmem).trans (h.clean i hi hd hW)
  · exact fun _ _ => burn_header (by decide)
  · intro hW hF
    have hgen := (Bool.or_eq_false_iff.mp hF).2
    rcases hburn with hfull | hd
    · exact absurd (h.full_iff.mp hfull) (beq_eq_false_iff_ne.mp hgen)
    · exact absurd (h.dirty_eq_zero hW) hd

theorem sync (hp : c.Persistent) (h : Inv c f W F s) :
    Inv c f W (F || s.gen == 0) (sync c s).2 := by
  by_cases hburn : full c s = true ∨ s.dirty ≠ 0
  · rw [sync_burns hp hburn]
    exact h.burns hp hburn
  · obtain ⟨hfull, hd⟩ := not_or.mp hburn
    rw [sync_unchanged hp hfull (not_not.mp hd), beq_false_of_ne (mt h.full_iff.mpr hfull),
      Bool.or_false]
    exact h

end Inv

theorem Since.inv {c : Config} {f : Flash 32} {W : Word} {F : Bool} {s : State} (hc : c.Sectored)
    (hp : c.Persistent) (h : Since c f W F s) : Inv c f W F s := by
  induction h with
  | boot => exact .boot c f
  | write blockno data _ _ ih => exact ih.write hc blockno data
  | sync _ ih => exact ih.sync hp

/-! ## The sync -/

/-- The sectors that the run has not written are the same in the slot at boot and in
    the disk that was staged. -/
def RightBase (c : Config) (f : Flash 32) (W : Word) : Prop :=
  ∀ i < c.nsect, ¬W.getLsbD i = true → SameSector i (image f) (staged c f)

section

variable {c : Config} {f : Flash 32} {W : Word} {F : Bool} {s : State}

theorem Inv.rightBase_iff (h : Inv c f W F s) :
    (∀ i < c.nsect, ¬s.dirty.getLsbD i = true → SameSector i (image s.flash) s.disk) ↔
      F = true ∨ RightBase c f W := by
  constructor
  · intro hall
    by_cases hF : F = true
    · exact .inl hF
    · refine .inr fun i hi hW => ?_
      have hd : ¬s.dirty.getLsbD i = true := mt (h.logged i) hW
      exact ((h.untouched i hi hW (Bool.eq_false_iff.mpr hF)).symm.trans (hall i hi hd)).trans
        (h.unwritten i hi hW)
  · intro hor i hi hd
    by_cases hW : W.getLsbD i = true ∨ F = true
    · exact h.clean i hi hd hW
    · obtain ⟨hW, hF⟩ := not_or.mp hW
      have hbase := hor.resolve_left hF i hi hW
      exact ((h.untouched i hi hW (Bool.eq_false_iff.mpr hF)).trans hbase).trans
        (h.unwritten i hi hW).symm

theorem rightBase_of_stage (hc : c.Sectored) (h : (stage c f).isSome = true) :
    RightBase c f W := by
  obtain ⟨l, hl⟩ := Option.isSome_iff_exists.mp h
  intro i hi _
  exact hc.contents_eq_iff.mp (contents_staged hl).symm i hi

theorem rightBase_iff (hc : c.Sectored) :
    RightBase c f W ↔ (stage c f).isSome = true ∨
      ∀ i < c.nsect, ¬W.getLsbD i = true → SameSector i (image f) c.golden := by
  by_cases hsome : (stage c f).isSome = true
  · exact ⟨fun _ => .inl hsome, fun _ => rightBase_of_stage hc hsome⟩
  · have hgolden : staged c f = c.golden := by
      rw [staged, Option.not_isSome_iff_eq_none.mp hsome]
    rw [RightBase, hgolden, or_iff_right hsome]

theorem restores_burns (hc : c.Sectored) (hp : c.Persistent)
    (hburn : full c s = true ∨ s.dirty ≠ 0) :
    Restores c s ↔ ∀ i < c.nsect, i ∉ burnt c s → SameSector i (image s.flash) s.disk := by
  rw [Restores, sync_burns hp hburn, ← stage_burn hc hp]
  exact forall_prop_of_true rfl

theorem Inv.restores_dirty (hc : c.Sectored) (hp : c.Persistent) (h : Inv c f W F s)
    (hgen : s.gen ≠ 0) (hd : s.dirty ≠ 0) : Restores c s ↔ F = true ∨ RightBase c f W := by
  have hfull : ¬full c s = true := mt h.full_iff.mp hgen
  rw [restores_burns hc hp (.inr hd), ← h.rightBase_iff]
  refine forall_congr' fun i => forall_congr' fun hi => ?_
  rw [mem_burnt, not_and, not_or]
  exact ⟨fun hall hb => hall fun _ => ⟨hfull, hb⟩, fun hall hb => hall (hb hi).2⟩

theorem Inv.restores_unchanged (hc : c.Sectored) (hp : c.Persistent) (h : Inv c f W F s)
    (hgen : s.gen ≠ 0) (hd : s.dirty = 0) :
    Restores c s ↔ (stage c f).isSome = true ∨ F = true ∨ (W ≠ 0 ∧ RightBase c f W) := by
  have hfull : ¬full c s = true := mt h.full_iff.mp hgen
  have hstage : Restores c s ↔ stage c s.flash = some (c.contents s.disk) := by
    rw [Restores, sync_unchanged hp hfull hd]
    exact forall_prop_of_true rfl
  rw [hstage]
  by_cases hW : W ≠ 0 ∨ F = true
  · have hheader : HeaderOk c s.flash := headerOk_of_slotGen (h.gen ▸ hgen)
    have hall : (∀ i < c.nsect, SameSector i (image s.flash) s.disk) ↔
        F = true ∨ RightBase c f W := by
      have hbit (i : Nat) : ¬(0 : Word).getLsbD i = true := by simp
      rw [← h.rightBase_iff, hd]
      exact forall_congr' fun i => forall_congr' fun _ => ⟨fun h _ => h, fun h => h (hbit i)⟩
    rw [stage_eq_some hp.slot, h.sealed hd hW, hc.contents_eq_iff, hall]
    constructor
    · rintro ⟨_, _, hF | hbase⟩
      · exact .inr (.inl hF)
      · exact .inr (hW.symm.imp_right fun hW => ⟨hW, hbase⟩)
    · intro hor
      have hbase : F = true ∨ RightBase c f W := by
        rcases hor with hsome | hF | ⟨_, hbase⟩
        · exact .inr (rightBase_of_stage hc hsome)
        · exact .inl hF
        · exact .inr hbase
      exact ⟨hheader, Config.checksum_congr (hc.contents_eq_iff.mpr (hall.mpr hbase)), hbase⟩
  · -- nothing has happened since the boot
    obtain ⟨hW, hF⟩ := not_or.mp hW
    have hzero : W = 0 := not_not.mp hW
    have hflash := h.fresh hzero (Bool.eq_false_iff.mpr hF)
    have hdisk : c.contents s.disk = c.contents (staged c f) :=
      hc.contents_eq_iff.mpr fun i hi => h.unwritten i hi (by rw [hzero]; simp)
    rw [hflash, hdisk]
    constructor
    · intro hsome
      exact .inl (by rw [hsome]; rfl)
    · rintro (hsome | hF' | ⟨hW', _⟩)
      · obtain ⟨l, hl⟩ := Option.isSome_iff_exists.mp hsome
        rw [contents_staged hl, hl, ((stage_eq_some hp.slot).mp hl).2.2]
      · exact absurd hF' hF
      · exact absurd hzero hW'

/-- A sync that reports success leaves the RAM disk to the next boot exactly when the
    slot was staged at boot, or a sync has burnt it whole, or every sector in which the
    slot was not the golden disk has been written. -/
theorem restores_iff (hc : c.Sectored) (h : Since c f W F s) :
    Restores c s ↔ ¬c.Persistent ∨ (stage c f).isSome = true ∨ F = true ∨ s.gen = 0 ∨
      (W ≠ 0 ∧ ∀ i < c.nsect, ¬W.getLsbD i = true → SameSector i (image f) c.golden) := by
  by_cases hp : c.Persistent
  · have hinv := h.inv hc hp
    rw [or_iff_right (not_not.mpr hp)]
    by_cases hgen : s.gen = 0
    · have hfull := hinv.full_iff.mpr hgen
      have hrest : Restores c s := (restores_burns hc hp (.inl hfull)).mpr fun i hi hnot =>
        absurd (mem_burnt.mpr ⟨hi, .inl hfull⟩) hnot
      exact iff_of_true hrest (.inr (.inr (.inl hgen)))
    · by_cases hd : s.dirty = 0
      · rw [hinv.restores_unchanged hc hp hgen hd, rightBase_iff hc]
        tauto
      · have hW : W ≠ 0 := mt hinv.dirty_eq_zero hd
        rw [hinv.restores_dirty hc hp hgen hd, rightBase_iff hc]
        tauto
  · exact iff_of_true (fun h0 => absurd h0 (sync_refused hp s).1) (.inl hp)

end

/-! ## A slot with a wrong checksum -/

/-- A disk of one sector, zeros in the build. -/
def oneSector : Config where
  fsslot := 0x10300000
  kflashArm := 0
  diskSize := 4096
  goldsum := 0
  golden := fun _ => 0

theorem oneSector_sectored : oneSector.Sectored := ⟨rfl, by decide⟩

theorem oneSector_persistent : oneSector.Persistent := ⟨by decide, by decide⟩

/-- A header of the right kind over an image of zeros, with 1 for the checksum. -/
def wrongSum : Flash 32
  | 0 => fsMagic
  | 1 => 1
  | 2 => 4096
  | 3 => 1
  | _ => 0

theorem Config.checksum_of_zero {c : Config} {d : Nat → Word} (h : ∀ i, d i = 0) :
    c.checksum d = 0 := by
  unfold checksum
  induction List.range c.words with
  | nil => rfl
  | cons i is ih =>
    rw [List.foldl_cons, h]
    exact ih

theorem stage_wrongSum : stage oneSector wrongSum = none := by
  have hsum : oneSector.checksum (image wrongSum) = 0 :=
    Config.checksum_of_zero fun i => by
      rw [image, Nat.add_comm]
      rfl
  rw [Option.eq_none_iff_forall_ne_some]
  intro l hl
  have h := ((stage_eq_some (by decide)).mp hl).2.1
  rw [hsum] at h
  exact absurd h (by decide)

/-- The firmware rejects the slot; the kernel takes it for the base, finds nothing to
    burn and reports success. -/
theorem wrongSum_not_restored :
    (sync oneSector (boot oneSector wrongSum)).1 = 0 ∧
      stage oneSector (sync oneSector (boot oneSector wrongSum)).2.flash = none ∧
      ¬Restores oneSector (boot oneSector wrongSum) := by
  have hsync : sync oneSector (boot oneSector wrongSum) = (0, boot oneSector wrongSum) :=
    sync_unchanged oneSector_persistent (by decide) rfl
  refine ⟨by rw [hsync], by rw [hsync]; exact stage_wrongSum, fun h => ?_⟩
  rw [Restores, hsync] at h
  have hsome := h rfl
  rw [show (boot oneSector wrongSum).flash = wrongSum from rfl, stage_wrongSum] at hsome
  cases hsome

/-- Once the sector is written, the sync repairs the slot. -/
theorem wrongSum_written_restored :
    (sync oneSector (writeBlock (boot oneSector wrongSum) 0 fun _ => 7)).1 = 0 ∧
      Restores oneSector (writeBlock (boot oneSector wrongSum) 0 fun _ => 7) := by
  have hrun := Since.write 0 (fun _ => 7) (.boot (c := oneSector) (f := wrongSum)) (by decide)
  refine ⟨?_, (restores_iff oneSector_sectored hrun).mpr (.inr (.inr (.inr (.inr ⟨by decide, ?_⟩))))⟩
  · rw [sync_burns oneSector_persistent (.inr (by decide))]
  · intro i hi hbit
    obtain rfl : i = 0 := Nat.lt_one_iff.mp hi
    exact absurd (by decide) hbit

end DmaCpu.Kflash
