-- SUMMARY: A decoded image laid out in SRAM, and what each loader leaves there before the init writes.
import DmaCpu.Dmx.Paths
import DmaCpu.Dmx.Fields
import DmaCpu.Dmx.CLoaderSound

/-!
# Segments in SRAM

For an image whose segments lie apart in SRAM both loaders leave the same bytes:
the host relocates copies and hands them to `LoadBytes`, the C loader copies word by
word and relocates in place. Both are the segments' buffers copied into SRAM.
-/
namespace DmaCpu.Dmx

open Emu List BitVec

namespace Source

variable (s : Source)

/-- The offset of segment `i` in SRAM. -/
def sramOff (i : Nat) : Nat := (s.seg i).place.toNat - sramBase

def sramOffs : List Nat := (List.range s.nSeg).map s.sramOff

/-- The lengths of the segments. -/
def lens : List Nat := (List.range s.nSeg).map fun i => (s.seg i).size.toNat

/-- The data of segment `i`, with the offset. -/
def item (i : Nat) : Nat × List Byte := (s.sramOff i, s.data i)

/-- The chip with these buffers where the segments go. -/
def filled {δ : Type} (c : Chip δ) (bufs : List (List Byte)) : Chip δ :=
  { c with mem := blitSrams c.mem (s.sramOffs.zip bufs) }

end Source

/-- An exact image with its segments laid out in SRAM, none touching another. -/
structure Layout (s : Source) (addr : Nat → Word) (sram : Nat) : Prop where
  exact : s.Exact
  place : ∀ i < s.nSeg, (s.seg i).place = addr i
  aligned : ∀ i < s.nSeg, (s.seg i).place.toNat % 4 = 0
  size : ∀ i < s.nSeg, (s.seg i).size.toNat % 4 = 0
  base : ∀ i < s.nSeg, sramBase ≤ (s.seg i).place.toNat
  inside : ∀ i < s.nSeg, (s.seg i).place.toNat + (s.seg i).size.toNat ≤ sramBase + sram
  apart : ∀ i < s.nSeg, ∀ j < s.nSeg, i ≠ j →
    (s.seg i).place.toNat + (s.seg i).size.toNat ≤ (s.seg j).place.toNat ∨
      (s.seg j).place.toNat + (s.seg j).size.toNat ≤ (s.seg i).place.toNat

variable {i : Nat} {bufs : List (List Byte)}

namespace Layout

variable {s : Source} {addr : Nat → Word} {sram : Nat}

theorem end_le (h : Layout s addr sram) (hi : i < s.nSeg) :
    s.sramOff i + (s.seg i).size.toNat ≤ sram := by
  have hbase := h.base i hi
  have hin := h.inside i hi
  rw [Source.sramOff]
  omega

theorem fit (h : Layout s addr sram) :
    Fit sram ((List.range s.nSeg).map fun i => (s.sramOff i, (s.seg i).size.toNat)) where
  inside p hp := by
    obtain ⟨i, hi, rfl⟩ := mem_map.mp hp
    exact h.end_le (mem_range.mp hi)
  apart := by
    rw [pairwise_map]
    refine pairwise_lt_range.imp_of_mem fun {i j} hi hj hlt => ?_
    have hi := mem_range.mp hi
    have hj := mem_range.mp hj
    have hbi := h.base i hi
    have hbj := h.base j hj
    have := h.apart i hi j hj (Nat.ne_of_lt hlt)
    simp only [Source.sramOff]
    omega

/-- An aligned word of a segment is a word of SRAM. -/
theorem sramWord {mem : Mem} (h : Layout s addr mem.sram.size) {mem' : Mem}
    (hmem : mem'.sram.size = mem.sram.size) (hi : i < s.nSeg) {w : Nat} (hw : w % 4 = 0)
    (hle : w + 4 ≤ (s.seg i).size.toNat) : SramWord mem' ((s.seg i).place + BitVec.ofNat 32 w) ∧
      ((s.seg i).place + BitVec.ofNat 32 w).toNat - sramBase = s.sramOff i + w := by
  have hend := h.end_le hi
  have hbase := h.base i hi
  have halign := h.aligned i hi
  have hsize := mem.sram_le
  have hnat : ((s.seg i).place + BitVec.ofNat 32 w).toNat = (s.seg i).place.toNat + w := by
    rw [toNat_add, toNat_ofNat]
    simp only [Source.sramOff, sramBase] at *
    omega
  have hoff : ((s.seg i).place + BitVec.ofNat 32 w).toNat - sramBase = s.sramOff i + w := by
    rw [Source.sramOff]
    omega
  refine ⟨⟨by omega, by omega, ?_⟩, hoff⟩
  omega

variable {δ : Type} {B : Board δ} {c : Chip δ} (h : Layout s addr c.mem.sram.size)

include h

section

variable {c' : Chip δ} {i : Nat} (hmem : c'.mem.sram.size = c.mem.sram.size) (hi : i < s.nSeg)
include hmem hi

theorem copyWord {k : Nat} (hk : 4 * k + 4 ≤ (s.seg i).size.toNat) :
    s.copyWord (chipBus B) (s.seg i).place (s.dataPos i) (.ok c') k =
      .ok { c' with mem :=
        c'.mem.store .sram (s.sramOff i + 4 * k) (le32 (s.data i) (4 * k)) .word } := by
  obtain ⟨hword, hoff⟩ := h.sramWord hmem hi (Nat.mul_mod_right 4 k) hk
  rw [← hoff, Source.le32_data h.exact hi hk]
  exact hword.write _

theorem copySeg : s.copySeg (chipBus B) (s.seg i) (s.dataPos i) (.ok c') =
      .ok { c' with mem := blitSram c'.mem (s.sramOff i) (s.data i) } := by
  have hdata := Source.length_data h.exact hi
  have hmod := h.size i hi
  have hwords : ∀ k ≤ (s.seg i).size.toNat / 4,
      (List.range k).foldl (s.copyWord (chipBus B) (s.seg i).place (s.dataPos i)) (.ok c') =
        .ok { c' with mem := storeWords c'.mem (s.sramOff i) (s.data i) k } ∧
      (storeWords c'.mem (s.sramOff i) (s.data i) k).sram.size = c.mem.sram.size := by
    intro k hk
    induction k with
    | zero => exact ⟨rfl, hmem⟩
    | succ k ih =>
      obtain ⟨hfold, hsz⟩ := ih (by omega)
      rw [storeWords_succ, range_succ, foldl_append, hfold]
      refine ⟨h.copyWord hsz hi (by omega), ?_⟩
      rw [size_sram_store, hsz]
  have hin : s.sramOff i + (s.data i).length ≤ c'.mem.sram.size := by
    rw [hmem, hdata]
    exact h.end_le hi
  rw [Source.copySeg, (hwords _ (Nat.le_refl _)).1,
    storeWords_eq c'.mem (s.sramOff i) (s.data i) (by omega) hin]

end

/-- The copy loop leaves the segments' data. -/
theorem copied (k n : Nat) (hkn : k + n ≤ s.nSeg) {d : Chip δ}
    (hmem : d.mem.sram.size = c.mem.sram.size) :
    s.copied (chipBus B) ((List.range' k n).map s.seg) (s.dataPos k) (.ok d) =
      .ok { d with mem := blitSrams d.mem ((List.range' k n).map s.item) } := by
  induction n generalizing k d with
  | zero => rfl
  | succ n ih =>
    have hmem' : (blitSram d.mem (s.sramOff k) (s.data k)).sram.size = c.mem.sram.size := by
      rw [size_blitSram, hmem]
    rw [range'_succ, map_cons, map_cons, Source.copied, h.copySeg hmem (by omega),
      ← Source.dataPos_succ, blitSrams_cons]
    exact ih (k + 1) (by omega) hmem'

omit h in
theorem shape_zip (hlens : bufs.map List.length = s.lens) :
    shape (s.sramOffs.zip bufs) =
      (List.range s.nSeg).map fun i => (s.sramOff i, (s.seg i).size.toNat) := by
  have hzip : shape (s.sramOffs.zip bufs) = s.sramOffs.zip (bufs.map List.length) :=
    (zip_map_right ..).symm
  rw [hzip, hlens]
  exact zip_map' ..

omit h in
theorem getElem?_zip (hlens : bufs.map List.length = s.lens) (hi : i < s.nSeg) :
    (s.sramOffs.zip bufs)[i]? = some (s.sramOff i, bufs.getD i []) ∧
      (bufs.getD i []).length = (s.seg i).size.toNat := by
  have hlen := congrArg (fun l : List Nat => l[i]?) hlens
  simp only [Source.lens, getElem?_map, getElem?_range hi, Option.map_some,
    Option.map_eq_some_iff] at hlen
  obtain ⟨b, hb, hlen⟩ := hlen
  rw [getD_eq_getElem?_getD, hb]
  refine ⟨getElem?_zip_eq_some.mpr ⟨?_, hb⟩, hlen⟩
  rw [Source.sramOffs, getElem?_map, getElem?_range hi]
  rfl

omit h in
theorem set_zip (offs : List Nat) (bufs : List (List Byte)) (b' : List Byte) {off : Nat}
    (hi : offs[i]? = some off) : (offs.zip bufs).set i (off, b') = offs.zip (bufs.set i b') := by
  induction offs generalizing bufs i with
  | nil => cases hi
  | cons o offs ih =>
    cases bufs with
    | nil => rfl
    | cons b bufs =>
      cases i with
      | zero =>
        cases hi
        rfl
      | succ i => exact congrArg ((o, b) :: ·) (ih bufs hi)

/-- One round of the relocation loop: the word is rebased in its buffer. -/
theorem relocWord (hlens : bufs.map List.length = s.lens)
    (hok : s.RelOk i) (hwrap : ¬s.RelWraps i) :
    s.relocWord (chipBus B) (.ok (s.filled c bufs)) i = .ok (s.filled c (bufs.set (s.relSeg i)
      (put32 (bufs.getD (s.relSeg i) []) (s.relOff i).toNat
        (le32 (bufs.getD (s.relSeg i) []) (s.relOff i).toNat + (s.seg (s.relRef i)).delta)))) := by
  have hle := relOff_add_le s hok hwrap
  obtain ⟨hitem, hlen⟩ := getElem?_zip hlens hok.1
  have hfit : Fit c.mem.sram.size (shape (s.sramOffs.zip bufs)) := by
    rw [shape_zip hlens]
    exact h.fit
  obtain ⟨hword, hoff⟩ := h.sramWord (size_blitSrams c.mem (s.sramOffs.zip bufs)) hok.1
    (toNat_mod_four hok.2.2.1) hle
  rw [ofNat_toNat, setWidth_eq] at hword hoff
  have hread := SramWord.read (B := B) (c := s.filled c bufs) hword
  have hwrite := SramWord.write (B := B) (c := s.filled c bufs) hword
    (le32 (bufs.getD (s.relSeg i) []) (s.relOff i).toNat + (s.seg (s.relRef i)).delta)
  have hval : (chipBus B).read (.ok (s.filled c bufs)) (s.relTarget i) =
      le32 (bufs.getD (s.relSeg i) []) (s.relOff i).toNat := by
    show ((Chip.read B _ ((s.seg (s.relSeg i)).place + s.relOff i)).toOption).getD 0 = _
    rw [hread, hoff, Source.filled, (blitSrams_eq c.mem _).1,
      load_blitAll hfit (mem_of_getElem? hitem) (by rw [hlen]; exact hle)]
    rfl
  rw [Source.relocWord, hval]
  refine hwrite.trans ?_
  rw [hoff, Source.filled, store_blitSrams hfit hitem (by rw [hlen]; exact hle),
    set_zip _ _ _ (getElem?_zip_eq_some.mp hitem).1]
  rfl

omit h in
theorem relocFits {n : Nat} (hn : s.nSeg ≤ n) (hok : s.RelOk i) :
    RelocFits s.lens n (s.relocOf i) := by
  obtain ⟨hseg, href, halign, hle⟩ := hok
  have hsize : s.lens.getD (s.relSeg i) 0 = (s.seg (s.relSeg i)).size.toNat := by
    rw [Source.lens, getD_eq_getElem?_getD, getElem?_map, getElem?_range hseg]
    rfl
  refine ⟨?_, Nat.lt_of_lt_of_le href hn, toNat_mod_four halign, ?_, ?_⟩
  · rw [Source.lens, length_map, length_range]
    exact hseg
  · exact hsize.trans_lt (isLt _)
  · exact (le_def.mp hle).trans_eq hsize.symm

section

variable {delta : List Word} (hn : delta.length = s.nSeg) (hdelta : ∀ i < s.nSeg, delta.getD i 0 = (s.seg i).delta)
include hn hdelta

/-- The relocation loops of the two loaders, in step. -/
theorem relocated (is : List Nat)
    (hok : ∀ i ∈ is, s.RelOk i ∧ ¬s.RelWraps i) (hlens : bufs.map List.length = s.lens) :
    ∃ bufs', relocateAll delta (is.map s.relocOf) bufs = .ok bufs' ∧
      bufs'.map List.length = s.lens ∧
      is.foldl (s.relocWord (chipBus B)) (.ok (s.filled c bufs)) = .ok (s.filled c bufs') := by
  induction is generalizing bufs with
  | nil => exact ⟨bufs, rfl, hlens, rfl⟩
  | cons i is ih =>
    obtain ⟨⟨hoki, hwrap⟩, hrest⟩ := forall_mem_cons.mp hok
    have hstep := (relocFits (Nat.le_of_eq hn.symm) hoki).relocate_ok hlens hwrap
    obtain ⟨bufs', hall, hlens', hfold⟩ := ih hrest (RelocFits.map_length_set hlens _ _ _)
    refine ⟨bufs', ?_, hlens', ?_⟩
    · rw [map_cons, relocateAll, hstep]
      exact hall
    · rw [foldl_cons, h.relocWord hlens hoki hwrap, ← hdelta _ hoki.2.1]
      exact hfold

/-- `dmx_load` up to the init writes. -/
theorem loaded
    (hok : ∀ i < s.nRel, s.RelOk i ∧ ¬s.RelWraps i) :
    ∃ bufs, relocateAll delta ((List.range s.nRel).map s.relocOf)
        ((List.range s.nSeg).map s.data) = .ok bufs ∧
      bufs.map List.length = s.lens ∧
      s.loaded (chipBus B) (.ok c) = Chip.writes B (s.filled c bufs) s.inits := by
  have hlens : ((List.range s.nSeg).map s.data).map List.length = s.lens := by
    rw [map_map]
    apply map_congr_left
    exact fun i hi => Source.length_data h.exact (mem_range.mp hi)
  obtain ⟨bufs, hall, hlens', hfold⟩ := h.relocated (B := B) hn hdelta (List.range s.nRel)
    (fun i hi => hok i (mem_range.mp hi)) hlens
  refine ⟨bufs, hall, hlens', ?_⟩
  have htab : s.tables % 2 ^ 32 = s.dataPos 0 :=
    Nat.mod_eq_of_lt (Nat.lt_of_le_of_lt (Source.tables_le h.exact) s.len.isLt)
  have hcopied : s.copied (chipBus B) s.segs (s.tables % 2 ^ 32) (.ok c) =
      .ok (s.filled c ((List.range s.nSeg).map s.data)) := by
    rw [htab, Source.filled, Source.segs, range_eq_range',
      h.copied 0 s.nSeg (Nat.le_of_eq (Nat.zero_add _)) rfl, Source.sramOffs, range_eq_range',
      zip_map']
    rfl
  rw [Source.loaded, hcopied, Source.relocated, hfold, chipBus_writes]

end

end Layout

/-! ## The host's loader -/

theorem mapIdx_map_range {α β : Type} (n : Nat) (f : Nat → α) (g : Nat → α → β) :
    ((List.range n).map f).mapIdx g = (List.range n).map fun i => g i (f i) := by
  apply ext_getElem <;> simp

theorem places_image {s : Source} (hex : s.Exact) (addr : Nat → Word) :
    places (fun i => some (addr i)) 0 (Raw.image s.bytes).segments =
      (List.range s.nSeg).map fun i => (addr i, addr i - s.field (Source.segPos i)) := by
  rw [places, Source.segments_image hex, mapIdx_map_range]
  simp only [Nat.zero_add]
  rfl

theorem spans_image {s : Source} (hex : s.Exact) (addr : Nat → Word) :
    (Raw.image s.bytes).spans (fun i => some (addr i)) =
      (List.range s.nSeg).map fun i => (addr i, (s.seg i).size) := by
  rw [Image.spans, Source.segments_image hex, mapIdx_map_range]
  apply map_congr_left
  intro i hi
  show (addr i, BitVec.ofNat 32 (s.data i).length) = _
  rw [Source.length_data hex (mem_range.mp hi), ofNat_toNat, setWidth_eq]

namespace Layout

variable {s : Source} {addr : Nat → Word} {sram : Nat} (h : Layout s addr sram)

include h

theorem getD_deltas (hi : i < s.nSeg) :
    ((Raw.image s.bytes).deltas fun i => some (addr i)).getD i 0 = (s.seg i).delta := by
  rw [Image.deltas, places_image h.exact, map_map, getD_eq_getElem?_getD,
    getElem?_map, getElem?_range hi]
  show addr i - s.field (Source.segPos i) = (s.seg i).place - s.field (Source.segPos i)
  rw [h.place i hi]

theorem length_deltas :
    ((Raw.image s.bytes).deltas fun i => some (addr i)).length = s.nSeg := by
  rw [Image.length_deltas, Source.length_segments h.exact]

theorem allAligned : AllAligned (fun i => some (addr i)) (Raw.image s.bytes).segments := by
  unfold AllAligned
  rw [places_image h.exact, forall_mem_map]
  intro i hi
  have hi := mem_range.mp hi
  rw [← h.place i hi]
  exact eq_of_toNat_eq (h.aligned i hi)

theorem toNat_end (hsram : sram ≤ 0x82000) (hi : i < s.nSeg) :
    (addr i + (s.seg i).size).toNat = (s.seg i).place.toNat + (s.seg i).size.toNat := by
  have hin := h.inside i hi
  rw [← h.place i hi, toNat_add]
  simp only [sramBase] at hin
  omega

theorem checkOverlap_ok (S : Sorter) (hsram : sram ≤ 0x82000) :
    checkOverlap S.sort (Raw.image s.bytes).segments
      ((places (fun i => some (addr i)) 0 (Raw.image s.bytes).segments).map Prod.fst) = .ok () := by
  rw [places_image h.exact, map_map]
  have hmem : ∀ e ∈ extents 0 (Raw.image s.bytes).segments
      ((List.range s.nSeg).map (Prod.fst ∘ fun i => (addr i, addr i - s.field (Source.segPos i)))),
      e.idx < s.nSeg ∧ e.start.toNat = (s.seg e.idx).place.toNat ∧
        e.stop.toNat = (s.seg e.idx).place.toNat + (s.seg e.idx).size.toNat ∧
        (s.seg e.idx).size.toNat ≠ 0 := by
    intro e he
    obtain ⟨k, g, p, hg, hp, hne, rfl⟩ := mem_extents he
    have hk : k < s.nSeg := by
      have := (List.getElem?_eq_some_iff.mp hg).1
      rwa [Source.length_segments h.exact] at this
    rw [Source.getElem?_segments h.exact hk] at hg
    rw [getElem?_map, getElem?_range hk] at hp
    cases hg
    cases hp
    simp only [Nat.zero_add, Source.length_data h.exact hk, ofNat_toNat,
      setWidth_eq] at hne ⊢
    exact ⟨hk, congrArg BitVec.toNat (h.place k hk).symm, h.toNat_end hsram hk, hne⟩
  have hperm := S.perm (extents 0 (Raw.image s.bytes).segments
    ((List.range s.nSeg).map (Prod.fst ∘ fun i => (addr i, addr i - s.field (Source.segPos i)))))
  refine apart_of_sorted (fun e he => ?_) (S.sorted _) ?_
  · obtain ⟨_, hstart, hstop, hne⟩ := hmem e (hperm.mem_iff.mp he)
    rw [lt_def]
    omega
  · rw [hperm.pairwise_iff fun h => h.symm]
    refine (pairwise_extents _ _ _).imp_of_mem fun {a b} ha hb hlt => ?_
    obtain ⟨hka, hsa, hea, _⟩ := hmem a ha
    obtain ⟨hkb, hsb, heb, _⟩ := hmem b hb
    have := h.apart _ hka _ hkb (Nat.ne_of_lt hlt)
    rw [le_def, le_def]
    omega

/-- The two ranges do not clash, as `LoadBytes` compares them. -/
theorem not_clash (hsram : sram ≤ 0x82000) {j : Nat} (hi : i < s.nSeg) (hj : j < s.nSeg)
    (hij : i ≠ j) : ¬clash (Span.range (addr i, (s.seg i).size)) (Span.range (addr j, (s.seg j).size)) := by
  have hapart := h.apart i hi j hj hij
  have hei := h.toNat_end hsram hi
  have hej := h.toNat_end hsram hj
  rw [h.place i hi] at hapart hei
  rw [h.place j hj] at hapart hej
  simp only [clash, Span.range, lt_def, hei, hej]
  omega

theorem spans_sram {mem : Mem} (hmem : sram = mem.sram.size) :
    ∀ sp ∈ (Raw.image s.bytes).spans (fun i => some (addr i)), spanInSRAM mem sp.1 sp.2 := by
  rw [spans_image h.exact, forall_mem_map]
  intro i hi
  have hi := mem_range.mp hi
  have hbase := h.base i hi
  have hin := h.inside i hi
  rw [h.place i hi] at hbase hin
  rw [spanInSRAM_iff]
  refine ⟨hbase, ?_⟩
  show (addr i).toNat - sramBase + (s.seg i).size.toNat ≤ mem.sram.size
  omega

theorem takesAll {mem : Mem} (hmem : sram = mem.sram.size) :
    TakesAll mem [] ((Raw.image s.bytes).spans fun i => some (addr i)) := by
  refine takesAll_of_sram (h.spans_sram hmem) (fun _ _ r hr => by cases hr) ?_
  rw [spans_image h.exact, pairwise_map]
  refine pairwise_lt_range.imp_of_mem fun {i j} hi hj hlt => ?_
  exact h.not_clash (hmem ▸ mem.sram_le) (mem_range.mp hj) (mem_range.mp hi)
    (Nat.ne_of_gt hlt)

theorem inits_image (hwr : ∀ i < s.nWr, s.WrOk i) :
    (Raw.image s.bytes).inits ((Raw.image s.bytes).deltas fun i => some (addr i)) = s.inits := by
  rw [Image.inits, Source.writes_image h.exact, map_map]
  apply map_congr_left
  intro i hi
  have hok := hwr i (mem_range.mp hi)
  show (s.wrAddr i, if s.wrRef i ≠ refAbs then _ else _) = (s.wrAddr i, s.wrVal i)
  rw [Source.wrVal]
  by_cases habs : s.wrRef i = refAbs
  · rw [if_neg (not_not.mpr habs), if_neg (not_not.mpr habs)]
    rfl
  · rw [if_pos habs, if_pos habs, ← h.getD_deltas (hok.resolve_left habs)]
    rfl

variable {δ : Type} (S : Sorter) {m : Machine δ}

omit h in
/-- `Load` up to the init writes. -/
theorem loadSegments (h : Layout s addr m.mem.sram.size)
    (hall : relocateAll ((Raw.image s.bytes).deltas fun i => some (addr i))
      ((List.range s.nRel).map s.relocOf) ((List.range s.nSeg).map s.data) = .ok bufs)
    (hlens : bufs.map List.length = s.lens) :
    ∃ loaded, (Raw.image s.bytes).loadSegments S.sort (fun i => some (addr i)) ⟨m, []⟩ =
      .ok (⟨{ m with mem := blitSrams m.mem (s.sramOffs.zip bufs) }, loaded⟩,
        places (fun i => some (addr i)) 0 (Raw.image s.bytes).segments) := by
  have hdatas : (Raw.image s.bytes).segments.map Segment.data = (List.range s.nSeg).map s.data := by
    rw [Source.segments_image h.exact, map_map]
    rfl
  have hlens' : bufs.map List.length =
      (Raw.image s.bytes).segments.map fun g => g.data.length := by
    rw [hlens, Source.segments_image h.exact, map_map]
    apply map_congr_left
    exact fun i hi => (Source.length_data h.exact (mem_range.mp hi)).symm
  have htakes := h.takesAll rfl
  have hsram : ∀ sp ∈ (Raw.image s.bytes).spans _, spanInSRAM m.mem sp.1 sp.2 := h.spans_sram rfl
  rw [← Image.map_spanOf_items hlens'] at htakes hsram
  have hitems : ((Raw.image s.bytes).items (fun i => some (addr i)) bufs).map sramItem =
      s.sramOffs.zip bufs := by
    rw [Image.items, places_image h.exact, map_map, Source.sramOffs, zip_map_left,
      zip_map_left, map_map]
    apply map_congr_left
    intro p hp
    have hi := mem_range.mp (of_mem_zip hp).1
    show ((addr p.1).toNat - sramBase, p.2) = (s.sramOff p.1, p.2)
    rw [Source.sramOff, h.place _ hi]
  rw [Image.loadSegments_eq S.sort _ ⟨h.allAligned, h.checkOverlap_ok S m.mem.sram_le⟩,
    Source.relocs_image h.exact, hdatas, hall]
  obtain ⟨loaded, hload⟩ := loadAll_of_sram (h := ⟨m, []⟩) htakes
    (forall_mem_map.mp hsram)
  refine ⟨loaded, ?_⟩
  show (loadAll _ _).bind _ = _
  rw [hload, hitems]
  rfl

end Layout

end DmaCpu.Dmx
