-- SUMMARY: The fields of one byte string as the decoder and as the C loader read them.
import DmaCpu.Dmx.LoadSound
import DmaCpu.Dmx.CLoaderSpec

/-!
# Two readings of an image

The decoder reads a list of bytes, the C loader memory from an address on. Within
the length they read the same words, so the decoder's image and its validation can
be stated over the C loader's fields.
-/
namespace DmaCpu.Dmx

open List BitVec

namespace Source

variable (s : Source)

/-- The bytes that `dmx_load` is given. -/
def bytes : List Byte := (List.range s.len.toNat).map fun k => s.image (BitVec.ofNat 32 k)

/-- Where the data of segment `i` starts. -/
def dataPos (i : Nat) : Nat := s.tables + ((List.range i).map fun j => (s.seg j).size.toNat).sum

/-- The data of segment `i`. -/
def data (i : Nat) : List Byte := (s.bytes.drop (s.dataPos i)).take (s.seg i).size.toNat

/-- The tables and the data fill the string. -/
def Exact : Prop := s.tables + s.sizes = s.len.toNat

variable {s}

theorem length_bytes : s.bytes.length = s.len.toNat := by
  rw [bytes, length_map, length_range]

theorem getD_bytes {k : Nat} (hk : k < s.len.toNat) :
    s.bytes.getD k 0 = s.image (BitVec.ofNat 32 k) := by
  rw [bytes, getD_eq_getElem?_getD, getElem?_map, getElem?_range hk]
  rfl

theorem le32_bytes {pos : Nat} (h : pos + 4 ≤ s.len.toNat) : le32 s.bytes pos = s.field pos := by
  unfold le32 field word
  rw [getD_bytes (by omega), getD_bytes (by omega), getD_bytes (by omega), getD_bytes (by omega),
    ofNat_add, ofNat_add, ofNat_add]
  rfl

theorem dataPos_succ (i : Nat) : s.dataPos (i + 1) = s.dataPos i + (s.seg i).size.toNat := by
  rw [dataPos, dataPos, range_succ, map_append, sum_append, map_cons,
    map_nil, sum_singleton, Nat.add_assoc]

theorem dataPos_nSeg : s.dataPos s.nSeg = s.tables + s.sizes := by
  rw [sizes, segs, map_map]
  rfl

theorem dataPos_mono {i j : Nat} (h : i ≤ j) : s.dataPos i ≤ s.dataPos j := by
  induction j with
  | zero => rw [Nat.le_zero.mp h]
  | succ j ih =>
    rw [dataPos_succ]
    rcases Nat.lt_or_ge i (j + 1) with hlt | hge
    · exact Nat.le_trans (ih (by omega)) (Nat.le_add_right _ _)
    · rw [Nat.le_antisymm h hge, dataPos_succ]

/-! ## The layout -/

section Layout

variable (hlen : 28 ≤ s.len.toNat)

include hlen

theorem nSeg_bytes : Raw.nSeg s.bytes = s.nSeg := congrArg BitVec.toNat (le32_bytes (by omega))

theorem nRel_bytes : Raw.nRel s.bytes = s.nRel := congrArg BitVec.toNat (le32_bytes (by omega))

theorem nWr_bytes : Raw.nWr s.bytes = s.nWr := congrArg BitVec.toNat (le32_bytes (by omega))

theorem relTab_bytes : Raw.relTab s.bytes = 28 + 8 * s.nSeg := by
  rw [Raw.relTab, nSeg_bytes hlen]

theorem wrTab_bytes : Raw.wrTab s.bytes = 28 + 8 * s.nSeg + 12 * s.nRel := by
  rw [Raw.wrTab, relTab_bytes hlen, nRel_bytes hlen]

theorem dataPos_bytes : Raw.dataPos s.bytes = s.tables := by
  rw [Raw.dataPos, wrTab_bytes hlen, nWr_bytes hlen]
  rfl

end Layout

theorem headers_bytes (hlen : 28 + 8 * s.nSeg ≤ s.len.toNat) :
    Raw.headers s.bytes =
      (List.range s.nSeg).map fun i => (s.field (segPos i), (s.seg i).size) := by
  rw [Raw.headers, nSeg_bytes (by omega)]
  apply map_congr_left
  intro i hi
  have := mem_range.mp hi
  rw [le32_bytes (by omega), le32_bytes (by omega)]
  rfl

theorem sizes_bytes (hlen : 28 + 8 * s.nSeg ≤ s.len.toNat) : Raw.sizes s.bytes = s.sizes := by
  rw [Raw.sizes, headers_bytes hlen, sizes, segs, map_map, map_map]
  rfl

theorem exact_iff : Raw.dataPos s.bytes + Raw.sizes s.bytes = s.bytes.length ↔ s.Exact := by
  rw [length_bytes, Exact]
  constructor
  · intro h
    have hlen : 28 ≤ s.len.toNat := by
      rw [Raw.dataPos, Raw.wrTab, Raw.relTab] at h
      omega
    rw [dataPos_bytes hlen] at h
    rw [sizes_bytes (by rw [tables] at h; omega)] at h
    exact h
  · intro h
    have htab : s.tables ≤ s.len.toNat := by omega
    rw [tables] at htab
    rw [dataPos_bytes (by omega), sizes_bytes (by omega), h]

/-! ## The decoded image -/

/-- Relocation and init write `i` as the decoder has them. -/
def relocOf (s : Source) (i : Nat) : Reloc :=
  ⟨s.field (s.relPos i), s.relOff i, s.field (s.relPos i + 8)⟩

def writeOf (s : Source) (i : Nat) : Write :=
  ⟨s.wrAddr i, s.field (s.wrPos i + 4), s.wrRef i⟩

theorem segmentsAt_eq (raw : List Byte) (pos : Nat) (link size : Nat → Word) (n k : Nat) :
    segmentsAt raw pos ((List.range' k n).map fun i => (link i, size i)) =
      (List.range' k n).map fun i => ⟨link i,
        (raw.drop (pos + ((List.range' k (i - k)).map fun j => (size j).toNat).sum)).take
          (size i).toNat⟩ := by
  induction n generalizing pos k with
  | zero => rfl
  | succ n ih =>
    rw [range'_succ, map_cons, segmentsAt, map_cons, ih, Nat.sub_self]
    congr 1
    apply map_congr_left
    intro i hi
    obtain ⟨j, hj, rfl⟩ := mem_range'.mp hi
    rw [show k + 1 + 1 * j - k = j + 1 by omega, show k + 1 + 1 * j - (k + 1) = j by omega,
      range'_succ, map_cons, sum_cons, Nat.add_assoc pos]

section Exactly

variable (hex : s.Exact)

include hex

theorem tables_le : s.tables ≤ s.len.toNat := by
  rw [Exact] at hex
  omega

theorem header_le : 28 ≤ s.len.toNat := by
  have := tables_le hex
  rw [tables] at this
  omega

theorem segTab_le : 28 + 8 * s.nSeg ≤ s.len.toNat := by
  have := tables_le hex
  rw [tables] at this
  omega

theorem dataEnd_le {i : Nat} (hi : i < s.nSeg) :
    s.dataPos i + (s.seg i).size.toNat ≤ s.len.toNat := by
  rw [← dataPos_succ, ← hex, ← dataPos_nSeg]
  exact dataPos_mono hi

theorem length_data {i : Nat} (hi : i < s.nSeg) : (s.data i).length = (s.seg i).size.toNat := by
  have := dataEnd_le hex hi
  rw [data, length_take, length_drop, length_bytes]
  omega

/-- A word of a segment is a word of the string. -/
theorem le32_data {i : Nat} (hi : i < s.nSeg) {w : Nat} (hw : w + 4 ≤ (s.seg i).size.toNat) :
    le32 (s.data i) w = s.field (s.dataPos i + w) := by
  have hend := dataEnd_le hex hi
  have hbyte : ∀ k < 4, (s.data i).getD (w + k) 0 = s.bytes.getD (s.dataPos i + w + k) 0 := by
    intro k hk
    rw [data, getD_eq_getElem?_getD, getElem?_take_of_lt (by omega), getElem?_drop,
      getD_eq_getElem?_getD, Nat.add_assoc]
  rw [← le32_bytes (by omega)]
  unfold le32
  rw [hbyte 1 (by omega), hbyte 2 (by omega), hbyte 3 (by omega),
    show (s.data i).getD w 0 = s.bytes.getD (s.dataPos i + w) 0 from hbyte 0 (by omega)]

theorem segments_image : (Raw.image s.bytes).segments =
    (List.range s.nSeg).map fun i => ⟨s.field (segPos i), s.data i⟩ := by
  show segmentsAt s.bytes (Raw.dataPos s.bytes) (Raw.headers s.bytes) = _
  rw [headers_bytes (segTab_le hex), dataPos_bytes (header_le hex), range_eq_range',
    segmentsAt_eq]
  apply map_congr_left
  intro i _
  rw [data, dataPos, Nat.sub_zero, range_eq_range']

theorem relocs_image : (Raw.image s.bytes).relocs = (List.range s.nRel).map s.relocOf := by
  show (List.range (Raw.nRel s.bytes)).map _ = _
  rw [nRel_bytes (header_le hex), relTab_bytes (header_le hex)]
  apply map_congr_left
  intro i hi
  have := mem_range.mp hi
  have htab := tables_le hex
  rw [tables] at htab
  rw [Raw.relocAt, le32_bytes (by omega), le32_bytes (by omega), le32_bytes (by omega)]
  rfl

theorem writes_image : (Raw.image s.bytes).writes = (List.range s.nWr).map s.writeOf := by
  show (List.range (Raw.nWr s.bytes)).map _ = _
  rw [nWr_bytes (header_le hex), wrTab_bytes (header_le hex)]
  apply map_congr_left
  intro i hi
  have := mem_range.mp hi
  have htab := tables_le hex
  rw [tables] at htab
  rw [Raw.writeAt, le32_bytes (by omega), le32_bytes (by omega), le32_bytes (by omega)]
  rfl

theorem length_segments : (Raw.image s.bytes).segments.length = s.nSeg := by
  rw [segments_image hex, length_map, length_range]

theorem getElem?_segments {i : Nat} (hi : i < s.nSeg) :
    (Raw.image s.bytes).segments[i]? = some ⟨s.field (segPos i), s.data i⟩ := by
  rw [segments_image hex, getElem?_map, getElem?_range hi]
  rfl

theorem lt_nSeg_iff {i : Word} : i < (Raw.image s.bytes).nSeg ↔ i.toNat < s.nSeg := by
  rw [lt_def, Image.nSeg, length_segments hex, toNat_ofNat, nSeg,
    Nat.mod_eq_of_lt (s.field 8).isLt]

theorem sizeOf_image {i : Word} (hi : i.toNat < s.nSeg) :
    (Raw.image s.bytes).sizeOf i = (s.seg i.toNat).size := by
  rw [Image.sizeOf, getElem?_segments hex hi]
  show BitVec.ofNat 32 (s.data i.toNat).length = _
  rw [length_data hex hi, ofNat_toNat, setWidth_eq]

theorem relocValid_iff (i : Nat) : (Raw.image s.bytes).RelocValid (s.relocOf i) ↔ s.RelOk i := by
  unfold Image.RelocValid RelOk
  rw [lt_nSeg_iff hex, lt_nSeg_iff hex]
  apply and_congr_right
  intro hseg
  rw [sizeOf_image hex hseg]
  rfl

theorem writeValid_iff (i : Nat) :
    (Raw.image s.bytes).WriteValid (s.writeOf i) ↔ s.WrOk i ∧ s.wrAddr i % 4 = 0 := by
  unfold Image.WriteValid WrOk
  rw [lt_nSeg_iff hex]
  rfl

theorem entryValid_iff : (Raw.image s.bytes).EntryValid ↔
    s.entrySeg < s.nSeg ∧ s.entryOff % 8 = 0 ∧ s.entryOff < (s.seg s.entrySeg).size := by
  have hlen := header_le hex
  have hseg : (Raw.image s.bytes).entrySeg = s.field 20 := le32_bytes (by omega)
  have hoff : (Raw.image s.bytes).entryOff = s.entryOff := le32_bytes (by omega)
  unfold Image.EntryValid
  rw [hseg, hoff, lt_nSeg_iff hex]
  apply and_congr_right
  intro hlt
  rw [sizeOf_image hex hlt]
  rfl

theorem segmentsValid_iff : (∀ g ∈ (Raw.image s.bytes).segments, g.Valid) ↔
    ∀ i < s.nSeg, (s.seg i).size % 4 = 0 ∧ s.field (segPos i) % 4 = 0 := by
  rw [segments_image hex]
  simp only [forall_mem_map, mem_range]
  refine forall₂_congr fun i hi => ?_
  rw [Segment.Valid, length_data hex hi]
  refine and_congr_left' ⟨fun h => eq_of_toNat_eq h, toNat_mod_four⟩

end Exactly

/-- What the decoder asks of a string, over the C loader's fields. -/
theorem decode_bytes_iff {im : Image} : decode s.bytes = .ok im ↔
    im = Raw.image s.bytes ∧ s.Exact ∧
      (s.field 0 = magic ∧ s.field 4 = 0 ∧ s.nSeg ≤ 1024 ∧ s.nRel ≤ 0x100000 ∧ s.nWr ≤ 0x10000) ∧
      (∀ i < s.nSeg, (s.seg i).size % 4 = 0 ∧ s.field (segPos i) % 4 = 0) ∧
      (∀ i < s.nRel, s.RelOk i) ∧ (∀ i < s.nWr, s.WrOk i ∧ s.wrAddr i % 4 = 0) ∧
      s.entrySeg < s.nSeg ∧ s.entryOff % 8 = 0 ∧ s.entryOff < (s.seg s.entrySeg).size := by
  rw [decode_eq_ok_iff, exact_iff]
  have hheader : s.Exact → (Raw.HeaderOk s.bytes ↔ s.field 0 = magic ∧ s.field 4 = 0 ∧
      s.nSeg ≤ 1024 ∧ s.nRel ≤ 0x100000 ∧ s.nWr ≤ 0x10000) := by
    intro hex
    have hlen := header_le hex
    rw [Raw.HeaderOk, le32_bytes (by omega), le32_bytes (by omega), nSeg_bytes hlen,
      nRel_bytes hlen, nWr_bytes hlen]
  have hvalid : s.Exact → ((Raw.image s.bytes).Valid ↔
      (∀ i < s.nSeg, (s.seg i).size % 4 = 0 ∧ s.field (segPos i) % 4 = 0) ∧
      (∀ i < s.nRel, s.RelOk i) ∧ (∀ i < s.nWr, s.WrOk i ∧ s.wrAddr i % 4 = 0) ∧
      s.entrySeg < s.nSeg ∧ s.entryOff % 8 = 0 ∧ s.entryOff < (s.seg s.entrySeg).size) := by
    intro hex
    have hrel : (∀ r ∈ (Raw.image s.bytes).relocs, (Raw.image s.bytes).RelocValid r) ↔
        ∀ i < s.nRel, s.RelOk i := by
      rw [relocs_image hex]
      simp [relocValid_iff hex]
    have hwr : (∀ w ∈ (Raw.image s.bytes).writes, (Raw.image s.bytes).WriteValid w) ↔
        ∀ i < s.nWr, s.WrOk i ∧ s.wrAddr i % 4 = 0 := by
      rw [writes_image hex]
      simp [writeValid_iff hex]
    rw [← hrel, ← hwr, ← segmentsValid_iff hex, ← entryValid_iff hex]
    exact ⟨fun h => ⟨h.segments, h.relocs, h.writes, h.entry⟩,
      fun h => ⟨h.1, h.2.1, h.2.2.1, h.2.2.2⟩⟩
  constructor
  · rintro ⟨hhdr, hex, rfl, hval⟩
    exact ⟨rfl, hex, (hheader hex).mp hhdr, (hvalid hex).mp hval⟩
  · rintro ⟨rfl, hex, hhdr, hval⟩
    exact ⟨(hheader hex).mpr hhdr, hex, rfl, (hvalid hex).mpr hval⟩

end Source

end DmaCpu.Dmx
