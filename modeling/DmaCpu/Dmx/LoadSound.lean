-- SUMMARY: When the host's loader places a decoded image faithfully: exactly where no offset or span wraps around.
import DmaCpu.Dmx.LoadSpec
import DmaCpu.Emu.Poke

/-!
# Soundness of the host's loader

On a decoded image `Load` is meant to be total, to leave every segment in memory
with its relocations applied, and to refuse overlapping placements. Two 32-bit
sums wrap: the end of a relocated word in `validate` and `Load`, and the end of a
span in the flash test of `LoadBytes`. `Harmless` says when neither does harm.
-/
namespace DmaCpu.Dmx

open Emu Fallible List

/-- What decoding leaves: a valid image of bounded size. -/
structure Decoded (im : Image) : Prop where
  valid : im.Valid
  few : im.segments.length ≤ 1024
  small : ∀ s ∈ im.segments, s.data.length < 2 ^ 32

theorem length_segmentsAt (raw : List Byte) (pos : Nat) (headers : List (Word × Word)) :
    (segmentsAt raw pos headers).length = headers.length := by
  induction headers generalizing pos with
  | nil => rfl
  | cons h hs ih => exact congrArg (· + 1) (ih _)

theorem length_data_segmentsAt (raw : List Byte) (pos : Nat) (headers : List (Word × Word)) :
    ∀ s ∈ segmentsAt raw pos headers, s.data.length < 2 ^ 32 := by
  induction headers generalizing pos with
  | nil => exact fun s hs => by cases hs
  | cons h hs ih =>
    obtain ⟨link, size⟩ := h
    rw [segmentsAt, forall_mem_cons]
    refine ⟨?_, ih _⟩
    exact Nat.lt_of_le_of_lt (length_take_le _ _) size.isLt

theorem decoded_of_decode {raw : List Byte} {im : Image} (h : decode raw = .ok im) :
    Decoded im := by
  obtain ⟨hhdr, _, rfl, hvalid⟩ := decode_eq_ok_iff.mp h
  refine ⟨hvalid, ?_, length_data_segmentsAt _ _ _⟩
  show (segmentsAt _ _ _).length ≤ _
  rw [length_segmentsAt, Raw.headers, length_map, length_range]
  exact hhdr.2.2.1

variable {s : Segment} {loaded : List (Word × Word)} {mem : Mem}

namespace Image

variable {δ : Type} (B : Board δ) (sort : List Extent → List Extent) (im : Image) (pl : Placement)
  (h : Host δ)

def deltas : List Word := (places pl 0 im.segments).map Prod.snd

def spans : List Span :=
  im.segments.mapIdx fun i s => (pl.addr i s, BitVec.ofNat 32 s.data.length)

/-- Byte `k` of segment `i`, with the relocations of its word added to the word. -/
def relocatedByte (i : Nat) (s : Segment) (k : Nat) : Byte :=
  (le32 s.data (4 * (k / 4)) + rebase (im.deltas pl) im.relocs i (4 * (k / 4))).extractLsb'
    (8 * (k % 4)) 8

/-- What `Load` is for. The first host is the one just before the init writes. -/
structure LoadSound : Prop where
  total : im.load B sort pl h ≠ .error .panic
  placed : ∀ r, im.load B sort pl h = .ok r → ∃ hm ps, im.loadSegments sort pl h = .ok (hm, ps) ∧
    (∀ i s, im.segments[i]? = some s → ∀ k < s.data.length,
      byteAt hm.m.mem (pl.addr i s + BitVec.ofNat 32 k) = some (im.relocatedByte pl i s k)) ∧
    ∀ i j s t, im.segments[i]? = some s → im.segments[j]? = some t → i ≠ j →
      ∀ k < s.data.length, ∀ l < t.data.length,
        pl.addr i s + BitVec.ofNat 32 k ≠ pl.addr j t + BitVec.ofNat 32 l

/-- If the placement is aligned and passes the overlap test, then no relocation is at
    offset `0xFFFFFFFC`; no segment come to starts behind the flash and wraps around
    to an end in or below it; and if all segments are taken and one of them goes past
    the end of the address space, an init write is refused. -/
def Harmless : Prop :=
  AllAligned pl im.segments →
  checkOverlap sort im.segments ((places pl 0 im.segments).map Prod.fst) = .ok () →
    (∀ r ∈ im.relocs, ¬r.Wraps) ∧
    ¬PanicsSome h.m.mem h.loaded (im.spans pl) ∧
    (TakesAll h.m.mem h.loaded (im.spans pl) → (∃ sp ∈ im.spans pl, Overruns sp) →
      ∀ hm ps, im.loadSegments sort pl h = .ok (hm, ps) →
        ∃ e, initWrites B (ps.map Prod.snd) 0 im.writes hm.m = .error e)

variable {im pl}

theorem length_deltas (pl : Placement) : (im.deltas pl).length = im.segments.length := by
  rw [deltas, length_map, places, length_mapIdx]

theorem toNat_nSeg (hd : Decoded im) : im.nSeg.toNat = im.segments.length := by
  have := hd.few
  rw [nSeg, BitVec.toNat_ofNat, Nat.mod_eq_of_lt (by omega)]

theorem toNat_sizeOf (hd : Decoded im) (i : Word) :
    (im.sizeOf i).toNat = (im.segments.map fun s => s.data.length).getD i.toNat 0 := by
  rw [getD_eq_getElem?_getD, getElem?_map, sizeOf]
  cases hs : im.segments[i.toNat]? with
  | none => rfl
  | some s => exact Nat.mod_eq_of_lt (hd.small s (mem_of_getElem? hs))

theorem relocFits (hd : Decoded im) {r : Reloc} (hr : r ∈ im.relocs) :
    RelocFits (im.segments.map fun s => s.data.length) (im.deltas pl).length r := by
  obtain ⟨hseg, href, halign, hle⟩ := hd.valid.relocs r hr
  rw [BitVec.lt_def, toNat_nSeg hd] at hseg href
  rw [BitVec.le_def, toNat_sizeOf hd] at hle
  refine ⟨by rwa [length_map], by rwa [length_deltas], congrArg BitVec.toNat halign, ?_, hle⟩
  rw [← toNat_sizeOf hd]
  exact BitVec.isLt _

/-! ## The segments, placed -/

/-- The buffers with their addresses. -/
def items (im : Image) (pl : Placement) (bufs : List (List Byte)) : List (Word × List Byte) :=
  ((places pl 0 im.segments).map Prod.fst).zip bufs

theorem getElem?_items (pl : Placement) {bufs : List (List Byte)}
    (hlens : bufs.map List.length = im.segments.map fun s => s.data.length) {i : Nat}
    (hs : im.segments[i]? = some s) : (im.items pl bufs)[i]? = some (pl.addr i s, bufs.getD i []) ∧
      (bufs.getD i []).length = s.data.length := by
  have hlen := congrArg (fun l : List Nat => l[i]?) hlens
  simp only [getElem?_map, hs, Option.map_some, Option.map_eq_some_iff] at hlen
  obtain ⟨b, hb, hlen⟩ := hlen
  rw [getD_eq_getElem?_getD, hb]
  refine ⟨getElem?_zip_eq_some.mpr ⟨?_, hb⟩, hlen⟩
  rw [getElem?_map, getElem?_places hs]
  rfl

theorem map_spanOf_items {bufs : List (List Byte)}
    (hlens : bufs.map List.length = im.segments.map fun s => s.data.length) :
    (im.items pl bufs).map spanOf = im.spans pl := by
  apply ext_getElem?
  intro i
  rw [getElem?_map, spans, getElem?_mapIdx]
  cases hs : im.segments[i]? with
  | none =>
    have hle : im.segments.length ≤ i := getElem?_eq_none_iff.mp hs
    rw [getElem?_eq_none_iff.mpr]
    · rfl
    · rw [items, length_zip, length_map, places, length_mapIdx]
      omega
  | some s =>
    obtain ⟨hitem, hlen⟩ := getElem?_items pl hlens hs
    rw [hitem, Option.map_some, Option.map_some, spanOf, hlen]

/-- The placement passes the alignment and overlap tests. -/
def Tested (im : Image) (pl : Placement) : Prop :=
  AllAligned pl im.segments ∧
    checkOverlap sort im.segments ((places pl 0 im.segments).map Prod.fst) = .ok ()

theorem loadSegments_tests : im.Tested sort pl ∨ ∃ e, im.loadSegments sort pl h = .error (.error e) := by
  show _ ∨ ∃ e, (placeAll pl 0 im.segments).bind _ = _
  by_cases hal : AllAligned pl im.segments
  · rw [placeAll_of_aligned hal]
    show _ ∨ ∃ e, (checkOverlap _ _ _).bind _ = _
    rcases hc : checkOverlap sort im.segments ((places pl 0 im.segments).map Prod.fst) with e | u
    · cases e with
      | error e => exact .inr ⟨e, rfl⟩
      | panic => exact absurd hc (apart_ne_panic _)
    · exact .inl ⟨hal, hc⟩
  · obtain ⟨e, he⟩ := placeAll_of_unaligned hal
    rw [he]
    exact .inr ⟨e, rfl⟩

theorem tests_of_loadSegments {r : Host δ × List (Word × Word)}
    (hload : im.loadSegments sort pl h = .ok r) : im.Tested sort pl :=
  (loadSegments_tests sort h).resolve_right fun ⟨_, he⟩ => nomatch he.symm.trans hload

/-- With an aligned placement that passes the overlap test, what is left is the
    relocations and the copies. -/
theorem loadSegments_eq (ht : im.Tested sort pl) :
    im.loadSegments sort pl h =
      (relocateAll (im.deltas pl) im.relocs (im.segments.map Segment.data)).bind fun bufs =>
        (loadAll (im.items pl bufs) h).bind fun h => .ok (h, places pl 0 im.segments) := by
  show (placeAll pl 0 im.segments).bind _ = _
  rw [placeAll_of_aligned ht.1]
  show (checkOverlap _ _ _).bind _ = _
  rw [ht.2]
  rfl

/-! ## The init writes and the entry -/

theorem initWrites_ne_panic {delta : List Word} {ws : List Write}
    (hws : ∀ w ∈ ws, w.ref = refAbs ∨ w.ref.toNat < delta.length) (i : Nat) (m : Machine δ) :
    initWrites B delta i ws m ≠ .error .panic := by
  induction ws generalizing i m with
  | nil => exact (nomatch ·)
  | cons w ws ih =>
    obtain ⟨hw, hws⟩ := forall_mem_cons.mp hws
    have hval : ∃ v, (if w.ref ≠ refAbs then (delta[w.ref.toNat]?).map (w.value + ·)
        else some w.value) = some v := by
      by_cases habs : w.ref = refAbs
      · exact ⟨_, if_neg (not_not.mpr habs)⟩
      · rw [if_pos habs, getElem?_eq_getElem (hw.resolve_left habs)]
        exact ⟨_, rfl⟩
    obtain ⟨v, hv⟩ := hval
    rw [initWrites]
    simp only [hv]
    cases m.write B w.addr v .word with
    | error fault => exact fun h => by simp at h
    | ok m => exact ih hws (i + 1) m

section

variable {hm : Host δ} {ps : List (Word × Word)} (hload : im.loadSegments sort pl h = .ok (hm, ps))
include hload

theorem loadSegments_eq_ok :
    ps = places pl 0 im.segments ∧ ∃ bufs,
      relocateAll (im.deltas pl) im.relocs (im.segments.map Segment.data) = .ok bufs ∧
      loadAll (im.items pl bufs) h = .ok hm := by
  rw [loadSegments_eq sort h (tests_of_loadSegments sort h hload)] at hload
  obtain ⟨bufs, hbufs, hrest⟩ := bind_eq_ok.mp hload
  obtain ⟨_, hall, hps⟩ := bind_eq_ok.mp hrest
  cases hps
  exact ⟨rfl, bufs, hbufs, hall⟩

theorem places_of_loadSegments : ps = places pl 0 im.segments :=
  (loadSegments_eq_ok sort h hload).1

end

theorem exists_entry (pl : Placement) (hd : Decoded im) :
    ∃ p, (places pl 0 im.segments)[im.entrySeg.toNat]? = some p := by
  have hlt := hd.valid.entry.1
  rw [BitVec.lt_def, toNat_nSeg hd] at hlt
  exact ⟨_, getElem?_places (getElem?_eq_getElem hlt)⟩

theorem load_eq_panic_iff (hd : Decoded im) :
    im.load B sort pl h = .error .panic ↔ im.loadSegments sort pl h = .error .panic := by
  show (im.loadSegments sort pl h).bind _ = _ ↔ _
  rw [bind_eq_error]
  refine or_iff_left ?_
  rintro ⟨⟨hm, ps⟩, hload, hrest⟩
  cases places_of_loadSegments sort h hload
  rcases bind_eq_error.mp hrest with hw | ⟨m, _, hentry⟩
  · refine initWrites_ne_panic B (fun w hw => ?_) 0 hm.m hw
    obtain ⟨href, _⟩ := hd.valid.writes w hw
    rw [BitVec.lt_def, toNat_nSeg hd, ← length_deltas pl] at href
    exact href
  · obtain ⟨p, hp⟩ := exists_entry pl hd
    simp only [hp] at hentry
    cases hentry

theorem load_eq_ok_iff (hd : Decoded im) :
    (∃ r, im.load B sort pl h = .ok r) ↔ ∃ hm ps m, im.loadSegments sort pl h = .ok (hm, ps) ∧
      initWrites B (ps.map Prod.snd) 0 im.writes hm.m = .ok m := by
  constructor
  · rintro ⟨r, hr⟩
    obtain ⟨⟨hm, ps⟩, hload, hrest⟩ := bind_eq_ok.mp hr
    obtain ⟨m, hm', _⟩ := bind_eq_ok.mp hrest
    exact ⟨hm, ps, m, hload, hm'⟩
  · rintro ⟨hm, ps, m, hload, hm'⟩
    obtain ⟨p, hp⟩ := exists_entry pl hd
    cases places_of_loadSegments sort h hload
    refine ⟨(p.1 + im.entryOff, { hm with m := m }), ?_⟩
    refine bind_eq_ok.mpr ⟨_, hload, bind_eq_ok.mpr ⟨m, hm', ?_⟩⟩
    simp only [hp]
    rfl

/-! ## The result -/

theorem lengths_data : (im.segments.map Segment.data).map List.length =
    im.segments.map fun s => s.data.length := by
  rw [map_map]
  rfl

theorem getD_data {i : Nat} (hs : im.segments[i]? = some s) :
    (im.segments.map Segment.data).getD i [] = s.data := by
  rw [getD_eq_getElem?_getD, getElem?_map, hs]
  rfl

/-- When all segments are taken and none goes past the end of the address space,
    the memory holds them relocated. -/
theorem byteAt_placed (hd : Decoded im) {bufs : List (List Byte)}
    (hlens : bufs.map List.length = im.segments.map fun s => s.data.length)
    (hword : ∀ i w, w % 4 = 0 → w + 4 ≤ (im.segments.map fun s => s.data.length).getD i 0 →
      le32 (bufs.getD i []) w = le32 ((im.segments.map Segment.data).getD i []) w +
        rebase (im.deltas pl) im.relocs i w)
    {hm : Host δ} (hload : loadAll (im.items pl bufs) h = .ok hm)
    (hover : ∀ sp ∈ im.spans pl, ¬Overruns sp) {i : Nat} {s : Segment}
    (hs : im.segments[i]? = some s) {k : Nat} (hk : k < s.data.length) :
    byteAt hm.m.mem (pl.addr i s + BitVec.ofNat 32 k) = some (im.relocatedByte pl i s k) := by
  obtain ⟨hitem, hlen⟩ := getElem?_items pl hlens hs
  have hsmall : ∀ it ∈ im.items pl bufs, it.2.length < 2 ^ 32 := by
    intro it hit
    have hmem : it.2.length ∈ bufs.map List.length :=
      mem_map_of_mem (of_mem_zip hit).2
    rw [hlens] at hmem
    obtain ⟨t, ht, heq⟩ := mem_map.mp hmem
    rw [← heq]
    exact hd.small t ht
  have hover' : ∀ it ∈ im.items pl bufs, ¬Overruns (spanOf it) := by
    intro it hit
    apply hover
    rw [← map_spanOf_items hlens]
    exact mem_map_of_mem hit
  rw [(byteAt_loadAll hload hsmall hover').2 _ (mem_of_getElem? hitem) k (by rw [hlen]; exact hk)]
  -- the word of the byte lies in the segment, whose size is a multiple of four
  have hmod := (hd.valid.segments s (mem_of_getElem? hs)).1
  have hsize : (im.segments.map fun s => s.data.length).getD i 0 = s.data.length := by
    rw [getD_eq_getElem?_getD, getElem?_map, hs]
    rfl
  rw [getD_eq_extract, hword i _ (by omega) (by omega), getD_data hs]
  rfl

theorem disjoint_placed (hd : Decoded im) (ht : TakesAll mem loaded (im.spans pl))
    (hover : ∀ sp ∈ im.spans pl, ¬Overruns sp) {i j : Nat} {t : Segment}
    (hs : im.segments[i]? = some s) (ht' : im.segments[j]? = some t) (hij : i < j) {k l : Nat}
    (hk : k < s.data.length) (hl : l < t.data.length) :
    pl.addr i s + BitVec.ofNat 32 k ≠ pl.addr j t + BitVec.ofNat 32 l := by
  have hspan : ∀ {i : Nat} {s : Segment}, im.segments[i]? = some s →
      (im.spans pl)[i]? = some (spanOf (pl.addr i s, s.data)) := by
    intro i s hs
    rw [spans, getElem?_mapIdx, hs]
    rfl
  obtain ⟨hi, hsi⟩ := List.getElem?_eq_some_iff.mp (hspan hs)
  obtain ⟨hj, hsj⟩ := List.getElem?_eq_some_iff.mp (hspan ht')
  have hclear := pairwise_iff_getElem.mp (pairwise_of_takesAll ht) i j hi hj hij
  rw [hsi, hsj] at hclear
  have hoveri := hover _ (mem_of_getElem? (hspan hs))
  have hoverj := hover _ (mem_of_getElem? (hspan ht'))
  have hsmalls := hd.small s (mem_of_getElem? hs)
  have hsmallt := hd.small t (mem_of_getElem? ht')
  have hbi := toNat_add_index hsmalls hoveri (Nat.le_of_lt hk)
  have hbj := toNat_add_index hsmallt hoverj (Nat.le_of_lt hl)
  intro heq
  have hnat := congrArg BitVec.toNat heq
  have hend : (pl.addr i s + BitVec.ofNat 32 s.data.length).toNat =
      (pl.addr i s).toNat + s.data.length := toNat_add_index hsmalls hoveri (Nat.le_refl _)
  refine not_mem_of_not_clash (b := pl.addr j t + BitVec.ofNat 32 l) hoverj hclear ?_ ?_ ?_
  · show (pl.addr i s).toNat ≤ _
    omega
  · show _ < (pl.addr i s + BitVec.ofNat 32 s.data.length).toNat
    omega
  · rw [toNat_length hsmallt]
    show (pl.addr j t).toNat ≤ _ ∧ _ < (pl.addr j t).toNat + _
    omega

/-- A span that is taken and goes past the end of the address space covers an address
    that no memory holds. -/
theorem byteAt_unmapped (mem : Mem) : byteAt mem 0x30000000 = none := by
  have hsram := mem.sram_le
  have hflash := mem.flash_le
  have haddr : (0x30000000 : Word).toNat = 0x30000000 := rfl
  unfold byteAt
  rw [if_neg, if_neg]
  · simp only [xipBase, psramWinOff] at *
    omega
  · simp only [sramBase] at *
    omega

theorem overrun_covers {sp : Span} (ht : Takes mem loaded sp) (hover : Overruns sp) :
    ∃ k < sp.2.toNat, sp.1 + BitVec.ofNat 32 k = 0x30000000 := by
  have hsram := mem.sram_le
  have hflash := mem.flash_le
  obtain ⟨hin, _, hstart⟩ := ht
  have hle : sp.1.toNat ≤ 0x30000000 := by
    rcases hin with hin | hin
    · have := spanInSRAM_iff.mp hin
      simp only [Overruns, sramBase] at *
      omega
    · have : ¬mem.flash.size < sp.1.toNat - xipBase := fun h => hstart ⟨hin, h⟩
      simp only [xipBase, psramWinOff] at *
      omega
  unfold Overruns at hover
  refine ⟨0x30000000 - sp.1.toNat, by omega, BitVec.eq_of_toNat_eq ?_⟩
  rw [BitVec.toNat_add, BitVec.toNat_ofNat, show (0x30000000 : Word).toNat = 0x30000000 from rfl]
  omega

theorem takes_of_takesAll {sps : List Span}
    (ht : TakesAll mem loaded sps) : ∀ sp ∈ sps, ∃ loaded', Takes mem loaded' sp := by
  induction sps generalizing loaded with
  | nil => exact fun sp hsp => by cases hsp
  | cons sp sps ih =>
    rw [forall_mem_cons]
    exact ⟨⟨loaded, ht.1⟩, ih ht.2⟩

/-- The relocated buffers, where no offset wraps. -/
theorem exists_bufs (pl : Placement) (hd : Decoded im) (hw : ∀ r ∈ im.relocs, ¬r.Wraps) :
    ∃ bufs, relocateAll (im.deltas pl) im.relocs (im.segments.map Segment.data) = .ok bufs ∧
      bufs.map List.length = (im.segments.map fun s => s.data.length) ∧
      ∀ i w, w % 4 = 0 → w + 4 ≤ (im.segments.map fun s => s.data.length).getD i 0 →
        le32 (bufs.getD i []) w = le32 ((im.segments.map Segment.data).getD i []) w +
          rebase (im.deltas pl) im.relocs i w :=
  relocateAll_ok (fun _ hr => relocFits hd hr) lengths_data hw

theorem loadSegments_panic_iff (hd : Decoded im) (ht : im.Tested sort pl) :
    im.loadSegments sort pl h = .error .panic ↔
      (∃ r ∈ im.relocs, r.Wraps) ∨ PanicsSome h.m.mem h.loaded (im.spans pl) := by
  rw [loadSegments_eq sort h ht]
  by_cases hw : ∃ r ∈ im.relocs, r.Wraps
  · rw [relocateAll_of_wraps (fun _ hr => relocFits hd hr) lengths_data hw]
    exact ⟨fun _ => .inl hw, fun _ => rfl⟩
  · have hw' : ∀ r ∈ im.relocs, ¬r.Wraps := fun r hr hwr => hw ⟨r, hr, hwr⟩
    obtain ⟨bufs, hbufs, hlens, _⟩ := exists_bufs pl hd hw'
    rw [hbufs, or_iff_right hw, ← map_spanOf_items hlens, ← loadAll_eq_panic]
    show (loadAll _ _).bind _ = _ ↔ _
    rw [bind_eq_error]
    exact or_iff_left (fun ⟨_, _, h'⟩ => nomatch h')

end Image

/-! ## Two images -/

/-- One segment of eight bytes in the SRAM, and one relocation of the word at an offset. -/
def oneReloc (off : Word) : List Byte :=
  leBytes [magic, 0, 1, 1, 0, 0, 0, 0x20000000, 8, 0, off, 0, 0, 0]

def oneRelocImage (off : Word) : Image where
  segments := [⟨0x20000000, [0, 0, 0, 0, 0, 0, 0, 0]⟩]
  relocs := [⟨0, off, 0⟩]
  writes := []
  entrySeg := 0
  entryOff := 0

def byStart (es : List Extent) : List Extent := es.insertionSort fun a b => a.start ≤ b.start

end DmaCpu.Dmx
