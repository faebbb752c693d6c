-- SUMMARY: The host's path and the chip's path side by side: the images on which they agree.
import DmaCpu.Dmx.Layout

/-!
# The two loaders agree

On a placement in disjoint ranges of SRAM the paths end in the same chip, or both
reject, except where the C loader takes an image that the host's checks refuse.
-/
namespace DmaCpu.Dmx

open Emu List Nat

/-! ## Images and placements -/

/-- Segment `i` stands in the string's segment table. -/
def Source.Has (s : Source) (i : Nat) : Prop := i < s.nSeg ∧ Source.segPos i + 8 ≤ s.len.toNat

/-- At most 16 segments, those there are placed at aligned addresses in disjoint
    ranges of an SRAM of this size. -/
structure Placing (s : Source) (addr : Nat → Word) (sram : Nat) : Prop where
  pl : s.pl = some addr
  few : 28 ≤ s.len.toNat → s.nSeg ≤ 16
  aligned : ∀ i, s.Has i → addr i % 4 = 0
  base : ∀ i, s.Has i → sramBase ≤ (addr i).toNat
  inside : ∀ i, s.Has i → (addr i).toNat + (s.seg i).size.toNat ≤ sramBase + sram
  apart : ∀ i j, s.Has i → s.Has j → i ≠ j → ∀ x,
    Covers ((addr i).toNat, (s.seg i).size.toNat) x → ¬Covers ((addr j).toNat, (s.seg j).size.toNat) x

/-- No empty segment is placed strictly inside another one. -/
def Source.EmptiesApart (s : Source) : Prop :=
  ∀ i < s.nSeg, ∀ j < s.nSeg, (s.seg i).size = 0 →
    (s.seg j).place.toNat < (s.seg i).place.toNat →
    (s.seg j).place.toNat + (s.seg j).size.toNat ≤ (s.seg i).place.toNat

/-- What the host's path asks of an image beyond what the C loader asks. -/
structure Strict (v : Variant) (cfg : MachineCfg) (s : Source) : Prop where
  /-- Nothing is left behind the last segment. -/
  exact : s.Exact
  relocs : s.nRel ≤ 0x100000
  writes : s.nWr ≤ 0x10000
  links : ∀ i < s.nSeg, s.field (Source.segPos i) % 4 = 0
  entry : s.entryOff % 8 = 0
  addrs : ∀ i < s.nWr, s.wrAddr i % 4 = 0
  /-- No relocation is at the offset whose end wraps to 0. -/
  offs : ∀ i < s.nRel, ¬s.RelWraps i
  empties : s.EmptiesApart
  chans : cfg.ChansOk v

/-! ## The result -/

/-- The host's path from the placed segments on. -/
theorem goPath_eq {δ : Type} {B : Board δ} {cfg : MachineCfg} {S : Sorter} {raw : List Byte}
    {addr : Nat → Word} {pl : Placement} {m : Machine δ} {im : Image} {hm : Host δ} {p : Word × Word}
    (hpl : pl = fun i => some (addr i)) (hdec : decode raw = .ok im)
    (hsegs : im.loadSegments S.sort pl ⟨m, []⟩ = .ok (hm, places pl 0 im.segments))
    (hws : ∀ w ∈ im.writes, w.ref = refAbs ∨ w.ref.toNat < (im.deltas pl).length)
    (hentry : (places pl 0 im.segments)[im.entrySeg.toNat]? = some p)
    (hstart : cfg.StartOk (p.1 + im.entryOff)) (hchans : cfg.ChansOk B.v) :
    goPath B cfg S raw addr m =
      ((chip hm.m).writes B (im.inits (im.deltas pl) ++
        cfg.startWrites B.v (p.1 + im.entryOff))).toOption.map
        fun c => ⟨p.1 + im.entryOff, im.inits (im.deltas pl), c⟩ := by
  subst hpl
  have hload : im.load B S.sort (fun i => some (addr i)) ⟨m, []⟩ =
      (initWrites B (im.deltas fun i => some (addr i)) 0 im.writes hm.m).bind fun m' =>
        .ok (p.1 + im.entryOff, { hm with m := m' }) := by
    show (im.loadSegments _ _ _).bind _ = _
    rw [hsegs]
    show (initWrites B _ 0 im.writes hm.m).bind _ = _
    simp only [hentry]
    rfl
  have hinit : _ = ((chip hm.m).writes B (im.inits _)).toOption := initWrites_chip B hws 0 hm.m
  unfold goPath
  rw [hdec, chip_writes_append]
  show (im.load B S.sort _ _).toOption.bind _ = _
  rw [hload]
  generalize (chip hm.m).writes B (im.inits _) = inits at hinit ⊢
  cases hw : initWrites B _ 0 im.writes hm.m with
  | error e =>
    rw [hw] at hinit
    cases inits with
    | error f => rfl
    | ok c => cases hinit
  | ok m' =>
    rw [hw] at hinit
    cases inits with
    | error f => cases hinit
    | ok c =>
      cases hinit
      show (cfg.setup B m' (p.1 + im.entryOff)).toOption.bind _ =
        ((chip m').writes B (cfg.startWrites B.v (p.1 + im.entryOff))).toOption.map _
      rw [setup_eq B cfg hstart hchans, ← pokes_chip]
      cases m'.pokes B (cfg.startWrites B.v (p.1 + im.entryOff)) <;> rfl

theorem MachineCfg.StartOk.entry {cfg : MachineCfg} {entry : Word} (h : cfg.StartOk entry) :
    entry % 8 = 0 := by
  unfold MachineCfg.StartOk at h
  split at h
  · exact h
  · have hmod : entry.toNat % 16 = 0 := congrArg BitVec.toNat h.2
    exact BitVec.eq_of_toNat_eq (show entry.toNat % 8 = 0 by omega)

theorem Source.has {s : Source} (hex : s.Exact) {i : Nat} (hi : i < s.nSeg) : s.Has i := by
  have := Source.segTab_le hex
  refine ⟨hi, ?_⟩
  rw [Source.segPos]
  omega

namespace Placing

variable {s : Source} {addr : Nat → Word} {sram : Nat} (hp : Placing s addr sram)

include hp

theorem place (hex : s.Exact) {i : Nat} (hi : i < s.nSeg) : (s.seg i).place = addr i := by
  have hbase := hp.base i (Source.has hex hi)
  have hne : addr i ≠ 0 := by
    intro h0
    rw [h0] at hbase
    exact absurd hbase (by decide)
  show s.place i _ = addr i
  rw [Source.place, hp.pl]
  exact if_pos hne

theorem toNat_end (hex : s.Exact) (hsram : sram ≤ 0x82000) {i : Nat} (hi : i < s.nSeg) :
    (addr i + (s.seg i).size).toNat = (addr i).toNat + (s.seg i).size.toNat := by
  have hin := hp.inside i (Source.has hex hi)
  rw [BitVec.toNat_add]
  simp only [sramBase] at hin
  omega

theorem layout (hex : s.Exact) (hsize : ∀ i < s.nSeg, (s.seg i).size % 4 = 0)
    (hempty : s.EmptiesApart) : Layout s addr sram where
  exact := hex
  place _ hi := hp.place hex hi
  aligned i hi := by
    rw [hp.place hex hi]
    exact toNat_mod_four (hp.aligned i (Source.has hex hi))
  size i hi := toNat_mod_four (hsize i hi)
  base i hi := by
    rw [hp.place hex hi]
    exact hp.base i (Source.has hex hi)
  inside i hi := by
    rw [hp.place hex hi]
    exact hp.inside i (Source.has hex hi)
  apart i hi j hj hij := by
    have happ := hp.apart i j (Source.has hex hi) (Source.has hex hj) hij
    rw [← hp.place hex hi, ← hp.place hex hj] at happ
    have hi0 := fun h0 : (s.seg i).size.toNat = 0 => hempty i hi j hj (BitVec.eq_of_toNat_eq h0)
    have hj0 := fun h0 : (s.seg j).size.toNat = 0 => hempty j hj i hi (BitVec.eq_of_toNat_eq h0)
    -- an overlap of two ranges that are not empty holds the later of the two starts
    have hx := happ (s.seg i).place.toNat
    have hy := happ (s.seg j).place.toNat
    simp only [Covers] at hx hy
    omega

/-- `LoadBytes` refuses an empty segment inside another one. -/
theorem emptiesApart (hex : s.Exact) (hsram : sram ≤ 0x82000)
    (hpair : ((Raw.image s.bytes).spans fun i => some (addr i)).Pairwise
      fun a b => ¬clash b.range a.range) : s.EmptiesApart := by
  rw [spans_image hex, pairwise_map] at hpair
  have hnot : ∀ {i j}, i < s.nSeg → j < s.nSeg → i < j →
      ¬clash (Span.range (addr j, (s.seg j).size)) (Span.range (addr i, (s.seg i).size)) := by
    intro i j hi hj hij
    have := pairwise_iff_getElem.mp hpair i j (by rwa [length_range])
      (by rwa [length_range]) hij
    rwa [getElem_range, getElem_range] at this
  intro i hi j hj hzero hlt
  by_contra hinside
  have hclash : clash (Span.range (addr i, (s.seg i).size)) (Span.range (addr j, (s.seg j).size)) := by
    have hend := hp.toNat_end hex hsram hj
    rw [hp.place hex hi, hp.place hex hj] at hlt hinside
    simp only [clash, Span.range, hzero, BitVec.lt_def, hend]
    rw [show addr i + 0 = addr i from BitVec.add_zero _]
    omega
  have hne : i ≠ j := by
    rintro rfl
    exact absurd hlt (lt_irrefl _)
  rcases lt_or_gt_of_ne hne with hij | hij
  · exact hnot hi hj hij hclash.symm
  · exact hnot hj hi hij hclash

end Placing

/-- `Load` panics on a relocation that wraps; else its buffers keep their lengths. -/
theorem relocs_of_ok {s : Source} {addr : Nat → Word} {bufs : List (List Byte)}
    (hd : Decoded (Raw.image s.bytes)) (hex : s.Exact)
    (hall : relocateAll ((Raw.image s.bytes).deltas fun i => some (addr i)) (Raw.image s.bytes).relocs
      ((Raw.image s.bytes).segments.map Segment.data) = .ok bufs) :
    (∀ i < s.nRel, ¬s.RelWraps i) ∧
      bufs.map List.length = (Raw.image s.bytes).segments.map fun g => g.data.length := by
  have hfit : ∀ r ∈ (Raw.image s.bytes).relocs, RelocFits _
      ((Raw.image s.bytes).deltas fun i => some (addr i)).length r :=
    fun r hr => Image.relocFits hd hr
  have hnot : ∀ r ∈ (Raw.image s.bytes).relocs, ¬r.Wraps := by
    intro r hr hwraps
    rw [relocateAll_of_wraps hfit Image.lengths_data ⟨r, hr, hwraps⟩] at hall
    cases hall
  constructor
  · rw [Source.relocs_image hex, forall_mem_map] at hnot
    exact fun i hi => hnot i (mem_range.mpr hi)
  · obtain ⟨bufs', hall', hlens, _⟩ := relocateAll_ok hfit Image.lengths_data hnot
    rw [hall] at hall'
    cases hall'
    exact hlens

/-- The chip takes every store of the C path. -/
def Taken {δ : Type} (B : Board δ) (cfg : MachineCfg) (s : Source) (c : Chip δ) : Prop :=
  ∃ c', (chipBus B).writes (s.loaded (chipBus B) (.ok c)) (cfg.startWrites B.v s.entry) = .ok c'

section Main

variable {δ : Type} {B : Board δ} {cfg : MachineCfg} {s : Source} {addr : Nat → Word}
  {m : Machine δ}

theorem writesRef_image (hex : s.Exact) (hwr : ∀ i < s.nWr, s.WrOk i) :
    ∀ w ∈ (Raw.image s.bytes).writes, w.ref = refAbs ∨ w.ref.toNat < s.nSeg := by
  rw [Source.writes_image hex, forall_mem_map]
  exact fun i hi => hwr i (mem_range.mp hi)

theorem entry_image (hp : Placing s addr m.mem.sram.size) (hex : s.Exact)
    (hlt : s.entrySeg < s.nSeg) :
    (places (fun i => some (addr i)) 0 (Raw.image s.bytes).segments)[
        (Raw.image s.bytes).entrySeg.toNat]? =
      some (addr s.entrySeg, addr s.entrySeg - s.field (Source.segPos s.entrySeg)) ∧
    addr s.entrySeg + (Raw.image s.bytes).entryOff = s.entry := by
  have hlen := Source.header_le hex
  have hseg : (Raw.image s.bytes).entrySeg = s.field 20 := Source.le32_bytes (by omega)
  have hoff : (Raw.image s.bytes).entryOff = s.entryOff := Source.le32_bytes (by omega)
  constructor
  · rw [places_image hex, getElem?_map, hseg]
    show ((List.range s.nSeg)[s.entrySeg]?).map _ = _
    rw [getElem?_range hlt]
    rfl
  · rw [hoff, Source.entry, hp.place hex hlt]

/-- Where the C loader accepts and the host's conditions hold, the paths go the same way. -/
theorem paths_eq (S : Sorter) (hp : Placing s addr m.mem.sram.size) (hstrict : Strict B.v cfg s)
    (hacc : s.Accepted) (hstart : cfg.StartOk s.entry) :
    goPath B cfg S s.bytes addr m = cPath B cfg s (chip m) := by
  obtain ⟨⟨_, hmagic, hflags, hfew⟩, _, hseg, _, hrel, hwr, hent⟩ := id hacc
  have hex := hstrict.exact
  have hlay : Layout s addr m.mem.sram.size :=
    hp.layout hex (fun i hi => (hseg i hi).2) hstrict.empties
  have hdec : decode s.bytes = .ok (Raw.image s.bytes) :=
    Source.decode_bytes_iff.mpr ⟨rfl, hex,
      ⟨hmagic, hflags, le_trans hfew (by decide), hstrict.relocs, hstrict.writes⟩,
      fun i hi => ⟨(hseg i hi).2, hstrict.links i hi⟩, hrel,
      fun i hi => ⟨hwr i hi, hstrict.addrs i hi⟩, hent.1, hstrict.entry, hent.2.1⟩
  obtain ⟨bufs, hall, hlens, hloaded⟩ := Layout.loaded (c := chip m) (B := B) hlay
    hlay.length_deltas (fun i hi => hlay.getD_deltas hi)
    (fun i hi => ⟨hrel i hi, hstrict.offs i hi⟩)
  obtain ⟨ranges, hsegs⟩ := Layout.loadSegments S hlay hall hlens
  obtain ⟨hplace, hentry⟩ := entry_image hp hex hent.1
  have hws := writesRef_image hex hwr
  rw [← hlay.length_deltas] at hws
  have hgo := goPath_eq (S := S) rfl hdec hsegs hws hplace (by rw [hentry]; exact hstart) hstrict.chans
  rw [hgo, hentry, hlay.inits_image hwr, cPath_of_accepted B cfg s (chip m) hacc hstart, hloaded,
    chip_writes_append, chipBus_writes_bind]
  rfl

/-- What the host's path accepts. -/
theorem strict_of_goPath (S : Sorter) (hp : Placing s addr m.mem.sram.size) {r : Started δ}
    (h : goPath B cfg S s.bytes addr m = some r) :
    Strict B.v cfg s ∧ s.Accepted ∧ cfg.StartOk s.entry := by
  obtain ⟨im, hdec, h⟩ := Option.bind_eq_some_iff.mp h
  obtain ⟨⟨entry, hh⟩, hload, h⟩ := Option.bind_eq_some_iff.mp h
  obtain ⟨m', hsetup, _⟩ := Option.bind_eq_some_iff.mp h
  have hdec := Fallible.toOption_eq_some.mp hdec
  have hload := Fallible.toOption_eq_some.mp hload
  have hsetup := Fallible.toOption_eq_some.mp hsetup
  have hd := decoded_of_decode hdec
  obtain ⟨rfl, hex, ⟨hmagic, hflags, _, hnrel, hnwr⟩, hseg, hrel, hwr, hent, hmod, hlt⟩ :=
    Source.decode_bytes_iff.mp hdec
  obtain ⟨⟨hm, ps⟩, hsegs, hrest⟩ := Fallible.bind_eq_ok.mp hload
  obtain ⟨m₁, hinit, hrest⟩ := Fallible.bind_eq_ok.mp hrest
  obtain ⟨rfl, bufs, hall, hloads⟩ := Image.loadSegments_eq_ok S.sort _ hsegs
  obtain ⟨hplace, hentry⟩ := entry_image hp hex hent
  have hentry' : entry = s.entry := by
    simp only [hplace] at hrest
    cases hrest
    exact hentry
  obtain ⟨hstart, hchans⟩ := startOk_of_setup B cfg hsetup
  rw [hentry'] at hstart
  obtain ⟨hoffs, hlens⟩ := relocs_of_ok hd hex hall
  have hpair := pairwise_of_takesAll (takesAll_of_loadAll hloads)
  rw [Image.map_spanOf_items hlens] at hpair
  have hempty := hp.emptiesApart hex m.mem.sram_le hpair
  have hlen := Source.header_le hex
  have htab := Source.tables_le hex
  have hent8 : s.entry % 8 = 0 := hstart.entry
  refine ⟨⟨hex, hnrel, hnwr, fun i hi => (hseg i hi).2, hmod, fun i hi => (hwr i hi).2, hoffs, hempty,
    hchans⟩, ⟨⟨hlen, hmagic, hflags, hp.few hlen⟩, ?_, ?_, ?_, hrel, fun i hi => (hwr i hi).1, hent,
    hlt, hent8⟩, hstart⟩
  · exact le_trans (mod_le _ _) htab
  · intro i hi
    refine ⟨?_, (hseg i hi).1⟩
    rw [hp.place hex hi]
    exact hp.aligned i (Source.has hex hi)
  · exact le_trans (mod_le _ _) (le_of_eq hex)

/-- The two paths agree on an image exactly where the C path rejects it too or the
    host's further conditions hold. -/
theorem goPath_eq_cPath_iff (B : Board δ) (cfg : MachineCfg) (S : Sorter) (s : Source)
    (addr : Nat → Word) (m : Machine δ) (hp : Placing s addr m.mem.sram.size) :
    goPath B cfg S s.bytes addr m = cPath B cfg s (chip m) ↔
      (s.Accepted → cfg.StartOk s.entry → Taken B cfg s (chip m) → Strict B.v cfg s) := by
  constructor
  · rintro heq hacc hstart ⟨c', hc'⟩
    rw [cPath_of_accepted B cfg s (chip m) hacc hstart, hc'] at heq
    exact (strict_of_goPath S hp heq).1
  · intro himp
    by_cases hall : Strict B.v cfg s ∧ s.Accepted ∧ cfg.StartOk s.entry
    · exact paths_eq S hp hall.1 hall.2.1 hall.2.2
    · have hgo : goPath B cfg S s.bytes addr m = none := by
        rw [Option.eq_none_iff_forall_ne_some]
        exact fun r hr => hall (strict_of_goPath S hp hr)
      rw [hgo]
      by_cases hc : s.Accepted ∧ cfg.StartOk s.entry
      · rw [cPath_of_accepted B cfg s (chip m) hc.1 hc.2]
        cases hw : (chipBus B).writes (s.loaded (chipBus B) (.ok (chip m)))
            (cfg.startWrites B.v s.entry) with
        | error f => rfl
        | ok c' => exact absurd ⟨himp hc.1 hc.2 ⟨c', hw⟩, hc⟩ hall
      · rw [cPath_of_refused B cfg s (chip m) hc]

end Main

/-! ## One segment, with and without bytes behind it -/

def byStartSorter : Sorter where
  sort := byStart
  perm es := perm_insertionSort _ es
  sorted es := by
    have : Std.Total fun a b : Extent => a.start ≤ b.start := ⟨fun a b => BitVec.le_total _ _⟩
    have : IsTrans Extent fun a b => a.start ≤ b.start := ⟨fun a b c => BitVec.le_trans⟩
    exact pairwise_insertionSort _ es

/-- An image of 52 bytes, given with this length. -/
def oneSegment (len : Word) : Source where
  image := ofWords [magic, 0, 1, 0, 0, 0, 0, 0x20000000, 16]
  len := len
  pl := some fun _ => 0x20000100

def compactCfg : MachineCfg := ⟨0, 0, 0, 0, true⟩

theorem nSeg_oneSegment (len : Word) : (oneSegment len).nSeg = 1 :=
  (by decide +kernel : (oneSegment 0).nSeg = 1)

theorem size_oneSegment (len : Word) : ((oneSegment len).seg 0).size = 16 :=
  (by decide +kernel : ((oneSegment 0).seg 0).size = 16)

theorem placing_oneSegment (len : Word) :
    Placing (oneSegment len) (fun _ => 0x20000100) (bareMachine []).mem.sram.size := by
  have hone : ∀ i, (oneSegment len).Has i → i = 0 := by
    rintro i ⟨hi, _⟩
    rw [nSeg_oneSegment] at hi
    exact lt_one_iff.mp hi
  refine ⟨rfl, ?_, fun _ _ => by decide, fun _ _ => by decide, ?_, ?_⟩
  · intro _
    rw [nSeg_oneSegment]
    decide
  · intro i hi
    rw [hone i hi, size_oneSegment]
    decide
  · intro i j hi hj hij
    exact absurd ((hone i hi).trans (hone j hj).symm) hij

theorem strict_oneSegment : Strict .rp2350 compactCfg (oneSegment 52) where
  exact := (by decide +kernel :
    (oneSegment 52).tables + (oneSegment 52).sizes = (oneSegment 52).len.toNat)
  relocs := by decide +kernel
  writes := by decide +kernel
  links i hi := by
    rw [lt_one_iff.mp hi]
    decide +kernel
  entry := by decide +kernel
  addrs i hi := by
    exact absurd hi (not_lt_zero i)
  offs i hi := by
    exact absurd hi (not_lt_zero i)
  empties i hi j hj hzero := by
    rw [lt_one_iff.mp hi] at hzero
    exact absurd hzero (by decide)
  chans := (nomatch ·)

theorem goPath_oneSegment :
    Placing (oneSegment 52) (fun _ => 0x20000100) (bareMachine []).mem.sram.size ∧
    (cPath (bareBoard .rp2350) compactCfg (oneSegment 52) (chip (bareMachine []))).isSome = true ∧
    goPath (bareBoard .rp2350) compactCfg byStartSorter (oneSegment 52).bytes (fun _ => 0x20000100)
      (bareMachine []) =
        cPath (bareBoard .rp2350) compactCfg (oneSegment 52) (chip (bareMachine [])) :=
  ⟨placing_oneSegment 52, by decide +kernel, (goPath_eq_cPath_iff _ _ _ _ _ _ (placing_oneSegment 52)).mpr
    fun _ _ _ => strict_oneSegment⟩

/-- `dmx_load` accepts bytes behind the last segment, `Decode` does not. -/
theorem goPath_trailing :
    Placing (oneSegment 56) (fun _ => 0x20000100) (bareMachine []).mem.sram.size ∧
    goPath (bareBoard .rp2350) compactCfg byStartSorter (oneSegment 56).bytes (fun _ => 0x20000100)
      (bareMachine []) ≠ cPath (bareBoard .rp2350) compactCfg (oneSegment 56) (chip (bareMachine [])) := by
  refine ⟨placing_oneSegment 56, ?_⟩
  have hgo : (goPath (bareBoard .rp2350) compactCfg byStartSorter (oneSegment 56).bytes
      (fun _ => 0x20000100) (bareMachine [])).isSome = false := by decide +kernel
  intro heq
  rw [heq] at hgo
  cases hgo

end DmaCpu.Dmx
