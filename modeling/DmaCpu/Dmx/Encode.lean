-- SUMMARY: The image writer, and that reading and writing undo each other.
import Mathlib.Data.List.GetD
import DmaCpu.Dmx.Decode

/-!
# Encoding

`encode` writes the header, the three tables and the data of the segments. Reading
is described by positions and writing by concatenation, so the tables are treated
once, as tables of records of a fixed width: `Record` says that a record is read
back from its bytes and spelt by the bytes it is read from.
-/
namespace DmaCpu.Dmx

open List

/-- The bytes of a table of records. -/
def table {α : Type} (words : α → List Word) (as : List α) : List Byte :=
  as.flatMap fun a => leBytes (words a)

/-- The words of a table entry for a segment. -/
def Segment.header (s : Segment) : Word × Word := (s.linkAddr, BitVec.ofNat 32 s.data.length)

def headerWords (h : Word × Word) : List Word := [h.1, h.2]
def Reloc.words (r : Reloc) : List Word := [r.seg, r.off, r.ref]
def Write.words (w : Write) : List Word := [w.addr, w.value, w.ref]

namespace Image

/-- The fixed part. -/
def fixed (im : Image) : List Word :=
  [magic, 0, im.nSeg, BitVec.ofNat 32 im.relocs.length, BitVec.ofNat 32 im.writes.length,
    im.entrySeg, im.entryOff]

/-- What `Encode` writes. -/
def bytes (im : Image) : List Byte :=
  leBytes im.fixed ++ table headerWords (im.segments.map Segment.header) ++
    table Reloc.words im.relocs ++ table Write.words im.writes ++
      im.segments.flatMap Segment.data

/-- The table sizes that the decoder takes. -/
def InTables (im : Image) : Prop :=
  im.segments.length ≤ 1024 ∧ im.relocs.length ≤ 0x100000 ∧ im.writes.length ≤ 0x10000

end Image

/-- `Encode`. -/
def encode (im : Image) : Except FormatError (List Byte) := do
  im.validate
  return im.bytes

theorem encode_eq_ok {im : Image} {b : List Byte} :
    encode im = .ok b ↔ im.Valid ∧ im.bytes = b := by
  rw [← Image.validate_eq_ok]
  constructor
  · intro h
    obtain ⟨_, hv, hb⟩ := Fallible.bind_eq_ok.mp h
    exact ⟨hv, Except.ok.inj hb⟩
  · rintro ⟨hv, rfl⟩
    exact Fallible.bind_eq_ok.mpr ⟨(), hv, rfl⟩

/-! ## Words -/

/-- `n` bytes from a position on. -/
def slice (raw : List Byte) (pos n : Nat) : List Byte := (raw.drop pos).take n

section

variable {raw pre post : List Byte} {pos n k : Nat}

theorem slice_add (raw : List Byte) (pos n k : Nat) :
    slice raw pos n ++ slice raw (pos + n) k = slice raw pos (n + k) := by
  rw [slice, slice, slice, take_add, drop_drop]

theorem slice_zero_add :
    slice raw 0 n ++ slice raw n k = slice raw 0 (n + k) := by
  rw [← slice_add, Nat.zero_add]

theorem slice_all : slice raw 0 raw.length = raw := by
  rw [slice, drop_zero, take_length]

theorem length_slice (h : pos + n ≤ raw.length) : (slice raw pos n).length = n := by
  rw [slice, length_take, length_drop]
  omega

theorem slice_append : slice (pre ++ raw ++ post) pre.length raw.length = raw := by
  rw [slice, append_assoc, drop_left, take_left]

theorem length_leBytes (ws : List Word) : (leBytes ws).length = 4 * ws.length := by
  induction ws with
  | nil => rfl
  | cons w ws ih =>
    rw [leBytes, flatMap_cons, length_append, ← leBytes]
    simp only [length_cons, length_nil]
    omega

theorem le32_append (w : Word) : le32 (pre ++ leBytes [w] ++ post) pre.length = w := by
  rw [le32]
  simpa [leBytes] using Ram.append_bytes w

theorem leBytes_le32 (h : pos + 4 ≤ raw.length) : leBytes [le32 raw pos] = slice raw pos 4 := by
  have hbyte (r : Nat) (hr : r < 4) :
      (le32 raw pos).extractLsb' (8 * r) 8 = raw.getD (pos + r) 0 := by
    rw [le32, Ram.extract_append _ _ _ _ hr]
    rcases (by omega : r = 0 ∨ r = 1 ∨ r = 2 ∨ r = 3) with rfl | rfl | rfl | rfl <;> rfl
  have hget (i : Nat) (hi : i < 4) : (slice raw pos 4)[i]? = some (raw.getD (pos + i) 0) := by
    rw [slice, getElem?_take_of_lt hi, getElem?_drop, getD_eq_getElem?_getD,
      getElem?_eq_getElem (by omega)]
    rfl
  apply ext_getElem?
  intro i
  rcases Nat.lt_or_ge i 4 with hi | hi
  · rw [hget i hi, ← hbyte i hi]
    rcases (by omega : i = 0 ∨ i = 1 ∨ i = 2 ∨ i = 3) with rfl | rfl | rfl | rfl <;> rfl
  · rw [getElem?_eq_none (by rw [length_leBytes]; exact hi),
      getElem?_eq_none (by rw [length_slice h]; exact hi)]

end

/-! ## Tables -/

/-- Records of `w` bytes: one is read back from its bytes, and spelt by the bytes it
    is read from. -/
structure Record {α : Type} (words : α → List Word) (read : List Byte → Nat → α) (w : Nat) :
    Prop where
  length : ∀ a, (leBytes (words a)).length = w
  read_words : ∀ pre post a, read (pre ++ leBytes (words a) ++ post) pre.length = a
  words_read : ∀ raw pos, pos + w ≤ raw.length → leBytes (words (read raw pos)) = slice raw pos w

namespace Record

variable {α : Type} {words : α → List Word} {read : List Byte → Nat → α} {w : Nat}

theorem length_table (h : Record words read w) (as : List α) :
    (table words as).length = w * as.length := by
  induction as with
  | nil => rfl
  | cons a as ih =>
    rw [table, flatMap_cons, length_append, ← table, ih, h.length, length_cons,
      Nat.mul_succ, Nat.add_comm]

theorem read_table (h : Record words read w) (as : List α) (pre post : List Byte) :
    ((List.range as.length).map fun i => read (pre ++ table words as ++ post) (pre.length + w * i)) =
      as := by
  induction as generalizing pre with
  | nil => rfl
  | cons a as ih =>
    have hsplit : pre ++ table words (a :: as) ++ post =
        pre ++ leBytes (words a) ++ table words as ++ post := by
      simp [table]
    have hpos (i : Nat) : pre.length + w * (i + 1) = (pre ++ leBytes (words a)).length + w * i := by
      rw [length_append, h.length, Nat.mul_succ]
      omega
    rw [length_cons, Reads.range_succ_map, hsplit]
    congr 1
    · rw [append_assoc]
      exact h.read_words pre _ a
    · simp only [hpos]
      exact ih (pre ++ leBytes (words a))

theorem table_read (h : Record words read w) (raw : List Byte) (k pos : Nat)
    (hle : pos + w * k ≤ raw.length) :
    table words ((List.range k).map fun i => read raw (pos + w * i)) = slice raw pos (w * k) := by
  induction k generalizing pos with
  | zero =>
    rfl
  | succ k ih =>
    rw [Nat.mul_succ] at hle
    have hpos (i : Nat) : pos + w * (i + 1) = pos + w + w * i := by
      rw [Nat.mul_succ]
      omega
    rw [Reads.range_succ_map, table, flatMap_cons, ← table]
    simp only [hpos]
    rw [ih (pos + w) (by omega), Nat.mul_zero, Nat.add_zero, h.words_read raw pos (by omega),
      slice_add, Nat.mul_succ, Nat.add_comm w]

theorem word : Record (fun w : Word => [w]) le32 4 where
  length _ := length_leBytes _
  read_words _ _ w := le32_append w
  words_read _ _ h := leBytes_le32 h

end Record

section

variable {raw : List Byte} {pos : Nat}

/-- The words written one after the other are read at every fourth position. -/
theorem le32_words (ws : List Word) (pre post : List Byte) {i : Nat} (hi : i < ws.length) :
    le32 (pre ++ leBytes ws ++ post) (pre.length + 4 * i) = ws.getD i 0 := by
  have htable : leBytes ws = table (fun w => [w]) ws := by
    simp [leBytes, table]
  have hread := congrArg (·.getD i 0) (Record.word.read_table ws pre post)
  simp only [← htable, getD_eq_getElem?_getD, getElem?_map, getElem?_range hi,
    Option.map_some, Option.getD_some] at hread
  rw [hread, getD_eq_getElem?_getD]

theorem words_le32 (k : Nat) (h : pos + 4 * k ≤ raw.length) :
    leBytes ((List.range k).map fun i => le32 raw (pos + 4 * i)) = slice raw pos (4 * k) := by
  rw [← Record.word.table_read raw k pos h]
  simp [leBytes, table]

theorem Record.header :
    Record headerWords (fun raw pos => (le32 raw pos, le32 raw (pos + 4))) 8 where
  length _ := length_leBytes _
  read_words pre post h := by
    have hread (i : Nat) (hi : i < 2) := le32_words (headerWords h) pre post hi
    exact Prod.ext (hread 0 (by omega)) (hread 1 (by omega))
  words_read _ _ h := words_le32 2 h

theorem Record.reloc : Record Reloc.words Raw.relocAt 12 where
  length _ := length_leBytes _
  read_words pre post r := by
    have hread (i : Nat) (hi : i < 3) := le32_words r.words pre post hi
    exact (Reloc.mk.injEq ..).mpr ⟨hread 0 (by omega), hread 1 (by omega), hread 2 (by omega)⟩
  words_read _ _ h := words_le32 3 h

theorem Record.write : Record Write.words Raw.writeAt 12 where
  length _ := length_leBytes _
  read_words pre post w := by
    have hread (i : Nat) (hi : i < 3) := le32_words w.words pre post hi
    exact (Write.mk.injEq ..).mpr ⟨hread 0 (by omega), hread 1 (by omega), hread 2 (by omega)⟩
  words_read _ _ h := words_le32 3 h

end

/-! ## Segments -/

/-- The size of the data fits the word it is written to. -/
def Segment.Sized (s : Segment) : Prop := s.data.length < 2 ^ 32

theorem Segment.Sized.toNat_length {s : Segment} (h : s.Sized) :
    (BitVec.ofNat 32 s.data.length).toNat = s.data.length :=
  Nat.mod_eq_of_lt h

theorem segmentsAt_data {segs : List Segment} (h : ∀ s ∈ segs, s.Sized) (pre : List Byte) :
    segmentsAt (pre ++ segs.flatMap Segment.data) pre.length (segs.map Segment.header) = segs := by
  induction segs generalizing pre with
  | nil => rfl
  | cons s segs ih =>
    obtain ⟨hs, hsegs⟩ := forall_mem_cons.mp h
    have hsplit : pre ++ (s :: segs).flatMap Segment.data =
        pre ++ s.data ++ segs.flatMap Segment.data := by
      rw [flatMap_cons, append_assoc]
    rw [map_cons, Segment.header, segmentsAt, hs.toNat_length, hsplit, ← length_append,
      ih hsegs]
    congr 2
    exact slice_append

section

variable {raw : List Byte} {pos : Nat} {hs : List (Word × Word)}

theorem sized_segmentsAt (raw : List Byte) (pos : Nat) (hs : List (Word × Word)) :
    ∀ s ∈ segmentsAt raw pos hs, s.Sized := by
  induction hs generalizing pos with
  | nil => exact forall_mem_nil _
  | cons h hs ih =>
    rw [segmentsAt, forall_mem_cons]
    refine ⟨?_, ih _⟩
    rw [Segment.Sized, length_take]
    exact Nat.lt_of_le_of_lt (Nat.min_le_left _ _) h.2.isLt

theorem data_segmentsAt (h : pos + (hs.map fun h => h.2.toNat).sum ≤ raw.length) :
    (segmentsAt raw pos hs).flatMap Segment.data =
        slice raw pos (hs.map fun h => h.2.toNat).sum ∧
      (segmentsAt raw pos hs).map Segment.header = hs := by
  induction hs generalizing pos with
  | nil =>
    exact ⟨rfl, rfl⟩
  | cons hd hs ih =>
    rw [map_cons, sum_cons] at h ⊢
    have hrest : pos + hd.2.toNat + (hs.map fun h => h.2.toNat).sum ≤ raw.length := by omega
    obtain ⟨hdata, hhs⟩ := ih hrest
    rw [segmentsAt, flatMap_cons, hdata, map_cons, hhs]
    refine ⟨slice_add raw pos _ _, ?_⟩
    have hlen : ((raw.drop pos).take hd.2.toNat).length = hd.2.toNat := length_slice (by omega)
    rw [Segment.header, hlen, BitVec.ofNat_toNat, BitVec.setWidth_eq]

end

/-! ## Whole images -/

theorem toNat_ofNat_length {n b : Nat} (h : n ≤ b) (hb : b < 2 ^ 32) : (BitVec.ofNat 32 n).toNat = n :=
  Nat.mod_eq_of_lt (Nat.lt_of_le_of_lt h hb)

namespace Image

variable {im : Image}

theorem le32_bytes (im : Image) {i : Nat} (hi : i < 7) : le32 im.bytes (4 * i) = im.fixed.getD i 0 := by
  have h := le32_words im.fixed [] (table headerWords (im.segments.map Segment.header) ++
    table Reloc.words im.relocs ++ table Write.words im.writes ++
      im.segments.flatMap Segment.data) hi
  rw [nil_append, length_nil, Nat.zero_add] at h
  rw [← h, bytes]
  simp

namespace InTables

variable (h : im.InTables)
include h

theorem nSeg_bytes : Raw.nSeg im.bytes = im.segments.length := by
  rw [Raw.nSeg, im.le32_bytes (i := 2) (by omega)]
  exact toNat_ofNat_length h.1 (by omega)

theorem nRel_bytes : Raw.nRel im.bytes = im.relocs.length := by
  rw [Raw.nRel, im.le32_bytes (i := 3) (by omega)]
  exact toNat_ofNat_length h.2.1 (by omega)

theorem nWr_bytes : Raw.nWr im.bytes = im.writes.length := by
  rw [Raw.nWr, im.le32_bytes (i := 4) (by omega)]
  exact toNat_ofNat_length h.2.2 (by omega)

theorem headerOk_bytes : Raw.HeaderOk im.bytes := by
  refine ⟨im.le32_bytes (i := 0) (by omega), im.le32_bytes (i := 1) (by omega), ?_, ?_, ?_⟩
  · rw [h.nSeg_bytes]
    exact h.1
  · rw [h.nRel_bytes]
    exact h.2.1
  · rw [h.nWr_bytes]
    exact h.2.2

theorem headers_bytes : Raw.headers im.bytes = im.segments.map Segment.header := by
  have hread := Record.header.read_table (im.segments.map Segment.header) (leBytes im.fixed)
    (table Reloc.words im.relocs ++ (table Write.words im.writes ++
      im.segments.flatMap Segment.data))
  rw [length_map] at hread
  rw [Raw.headers, h.nSeg_bytes]
  refine Eq.trans ?_ hread
  rw [bytes]
  simp only [append_assoc]
  rfl

theorem relocs_bytes : (Raw.image im.bytes).relocs = im.relocs := by
  have hread := Record.reloc.read_table im.relocs
    (leBytes im.fixed ++ table headerWords (im.segments.map Segment.header))
    (table Write.words im.writes ++ im.segments.flatMap Segment.data)
  rw [length_append, Record.header.length_table, length_map] at hread
  rw [Raw.image, Raw.relTab, h.nRel_bytes, h.nSeg_bytes]
  refine Eq.trans ?_ hread
  rw [bytes]
  simp only [append_assoc]
  rfl

theorem writes_bytes : (Raw.image im.bytes).writes = im.writes := by
  have hread := Record.write.read_table im.writes
    (leBytes im.fixed ++ table headerWords (im.segments.map Segment.header) ++
      table Reloc.words im.relocs)
    (im.segments.flatMap Segment.data)
  rw [length_append, length_append, Record.header.length_table,
    length_map, Record.reloc.length_table] at hread
  rw [Raw.image, Raw.wrTab, Raw.relTab, h.nWr_bytes, h.nRel_bytes, h.nSeg_bytes]
  refine Eq.trans ?_ hread
  rw [bytes]
  rfl

theorem dataPos_bytes : Raw.dataPos im.bytes + (im.segments.flatMap Segment.data).length =
    im.bytes.length := by
  rw [Raw.dataPos, Raw.wrTab, Raw.relTab, h.nWr_bytes, h.nRel_bytes, h.nSeg_bytes, bytes]
  simp only [length_append, length_leBytes, Record.header.length_table, length_map,
    Record.reloc.length_table, Record.write.length_table]
  rfl

section

variable (hs : ∀ s ∈ im.segments, s.Sized)
include hs

theorem segments_bytes :
    (Raw.image im.bytes).segments = im.segments := by
  have hread := segmentsAt_data hs (leBytes im.fixed ++
    table headerWords (im.segments.map Segment.header) ++ table Reloc.words im.relocs ++
      table Write.words im.writes)
  have hpos := h.dataPos_bytes
  rw [bytes, length_append, Nat.add_right_cancel_iff] at hpos
  rw [← hpos] at hread
  rw [Raw.image, h.headers_bytes]
  exact hread

theorem sizes_bytes :
    Raw.sizes im.bytes = (im.segments.flatMap Segment.data).length := by
  rw [Raw.sizes, h.headers_bytes, map_map, length_flatMap]
  congr 1
  exact map_congr_left fun s hmem => (hs s hmem).toNat_length

theorem image_bytes : Raw.image im.bytes = im := by
  exact (Image.mk.injEq ..).mpr ⟨h.segments_bytes hs, h.relocs_bytes, h.writes_bytes,
    le32_bytes _ (i := 5) (by omega), le32_bytes _ (i := 6) (by omega)⟩

theorem decode_bytes (hv : im.Valid) :
    decode im.bytes = .ok im := by
  rw [decode_eq_ok_iff, h.sizes_bytes hs]
  exact ⟨h.headerOk_bytes, h.dataPos_bytes, (h.image_bytes hs).symm, hv⟩

end

end InTables

end Image

section

variable {raw : List Byte}

theorem length_segments_image (hlen : Raw.dataPos raw + Raw.sizes raw = raw.length) :
    (Raw.image raw).segments.length = Raw.nSeg raw := by
  have h := congrArg List.length (data_segmentsAt (Nat.le_of_eq hlen)).2
  rw [length_map, Raw.headers, length_map, length_range] at h
  exact h

theorem fixed_image (hok : Raw.HeaderOk raw) (hlen : Raw.dataPos raw + Raw.sizes raw = raw.length) :
    (Raw.image raw).fixed = (List.range 7).map fun i => le32 raw (0 + 4 * i) := by
  obtain ⟨hmagic, hflags, _⟩ := hok
  have hrel : (Raw.image raw).relocs.length = Raw.nRel raw := by
    rw [Raw.image, length_map, length_range]
  have hwr : (Raw.image raw).writes.length = Raw.nWr raw := by
    rw [Raw.image, length_map, length_range]
  rw [Image.fixed, Image.nSeg, length_segments_image hlen, hrel, hwr, ← hmagic, ← hflags,
    Raw.nSeg, Raw.nRel, Raw.nWr, BitVec.ofNat_toNat, BitVec.ofNat_toNat, BitVec.ofNat_toNat, BitVec.setWidth_eq]
  rfl

theorem bytes_image (hok : Raw.HeaderOk raw)
    (hlen : Raw.dataPos raw + Raw.sizes raw = raw.length) : (Raw.image raw).bytes = raw := by
  obtain ⟨hdata, hheaders⟩ := data_segmentsAt (Nat.le_of_eq hlen)
  have hfixed : leBytes (Raw.image raw).fixed = slice raw 0 28 := by
    rw [fixed_image hok hlen]
    exact words_le32 7 (by rw [← hlen, Raw.dataPos, Raw.wrTab, Raw.relTab]; omega)
  have hsegs : table headerWords (Raw.headers raw) = slice raw 28 (8 * Raw.nSeg raw) :=
    Record.header.table_read raw _ _ (by rw [← hlen, Raw.dataPos, Raw.wrTab, Raw.relTab]; omega)
  have hrels : table Reloc.words (Raw.image raw).relocs =
      slice raw (Raw.relTab raw) (12 * Raw.nRel raw) :=
    Record.reloc.table_read raw _ _ (by rw [← hlen, Raw.dataPos, Raw.wrTab]; omega)
  have hwrs : table Write.words (Raw.image raw).writes =
      slice raw (Raw.wrTab raw) (12 * Raw.nWr raw) :=
    Record.write.table_read raw _ _ (by rw [← hlen, Raw.dataPos]; omega)
  have hsegments : (Raw.image raw).segments = segmentsAt raw (Raw.dataPos raw) (Raw.headers raw) :=
    rfl
  calc (Raw.image raw).bytes
      = slice raw 0 28 ++ slice raw 28 (8 * Raw.nSeg raw) ++
          slice raw (Raw.relTab raw) (12 * Raw.nRel raw) ++
            slice raw (Raw.wrTab raw) (12 * Raw.nWr raw) ++
              slice raw (Raw.dataPos raw) (Raw.sizes raw) := by
        rw [Image.bytes, hfixed, hrels, hwrs, hsegments, hheaders, hsegs, hdata, Raw.sizes]
    _ = slice raw 0 (Raw.dataPos raw + Raw.sizes raw) := by
        rw [slice_zero_add, ← Raw.relTab, slice_zero_add, ← Raw.wrTab, slice_zero_add,
          ← Raw.dataPos, slice_zero_add]
    _ = raw := by rw [hlen, slice_all]

end

/-- An accepted byte string is what the writer writes for the image. -/
theorem decode_bytes {raw : List Byte} {im : Image} (h : decode raw = .ok im) : im.bytes = raw := by
  obtain ⟨hok, hlen, rfl, _⟩ := decode_eq_ok_iff.mp h
  exact bytes_image hok hlen

theorem sized_of_decode {raw : List Byte} {im : Image} (h : decode raw = .ok im) :
    ∀ s ∈ im.segments, s.Sized := by
  obtain ⟨_, _, rfl, _⟩ := decode_eq_ok_iff.mp h
  exact sized_segmentsAt raw _ _

/-- An image that the writer accepts is read back from what is written exactly when
    the size of every segment fits its word; what the reader accepts is written back
    as it was, so no two byte strings are read as one image. -/
theorem decode_encode_iff (im : Image) :
    (im.InTables → im.validate = .ok () →
      ((encode im).bind decode = .ok im ↔ ∀ s ∈ im.segments, s.data.length < 2 ^ 32)) ∧
    (∀ b, decode b = .ok im → encode im = .ok b) ∧
    ∀ b b', decode b = .ok im → decode b' = .ok im → b = b' := by
  refine ⟨fun ht hv => ?_, fun b h => ?_, fun b b' h h' => ?_⟩
  · have hvalid := im.validate_eq_ok.mp hv
    have henc : encode im = .ok im.bytes := encode_eq_ok.mpr ⟨hvalid, rfl⟩
    rw [henc]
    exact ⟨sized_of_decode, fun hs => ht.decode_bytes hs hvalid⟩
  · exact encode_eq_ok.mpr ⟨(decode_eq_ok_iff.mp h).2.2.2, decode_bytes h⟩
  · rw [← decode_bytes h, ← decode_bytes h']

/-- Two segments of 8 and 4 bytes, with a relocation and an init write. -/
def twoSegments : Image where
  segments := [⟨0x20000000, List.replicate 8 1⟩, ⟨0x20001000, List.replicate 4 2⟩]
  relocs := [⟨0, 4, 1⟩]
  writes := [⟨0x40000000, 4, 1⟩]
  entrySeg := 0
  entryOff := 0

theorem decode_encode_twoSegments :
    (encode twoSegments).bind decode = .ok twoSegments ∧
      (∃ b, decode b = .ok twoSegments) ∧
      ∀ b, decode b = .ok twoSegments → encode twoSegments = .ok b := by
  obtain ⟨hback, hforth, _⟩ := decode_encode_iff twoSegments
  have hin : twoSegments.InTables := by
    unfold Image.InTables
    decide
  have hrt := (hback hin (by decide)).mpr (by decide)
  refine ⟨hrt, ?_, hforth⟩
  obtain ⟨b, _, hb⟩ := Fallible.bind_eq_ok.mp hrt
  exact ⟨b, hb⟩

/-- One segment of zeros. -/
def zeros (n : Nat) : Image where
  segments := [⟨0, List.replicate n 0⟩]
  relocs := []
  writes := []
  entrySeg := 0
  entryOff := 0

theorem valid_zeros {n : Nat} (h4 : n % 4 = 0) (h : 0 < n % 2 ^ 32) : (zeros n).Valid where
  segments s hs := by
    obtain rfl := mem_singleton.mp hs
    exact ⟨by rw [length_replicate]; exact h4, rfl⟩
  relocs := forall_mem_nil _
  writes := forall_mem_nil _
  entry := by
    refine ⟨(by decide : (0 : Word) < 1), rfl, ?_⟩
    show (0 : Word).toNat < (BitVec.ofNat 32 (List.replicate n (0 : Byte)).length).toNat
    rw [length_replicate]
    exact h

/-- A segment of 8 bytes more than a word can count is not read back. -/
theorem oversized_lost :
    (zeros (2 ^ 32 + 8)).InTables ∧ (zeros (2 ^ 32 + 8)).validate = .ok () ∧
      (encode (zeros (2 ^ 32 + 8))).bind decode ≠ .ok (zeros (2 ^ 32 + 8)) := by
  have hvalid : (zeros (2 ^ 32 + 8)).Valid := valid_zeros (by omega) (by omega)
  refine ⟨⟨?_, ?_, ?_⟩, (Image.validate_eq_ok _).mpr hvalid, fun h => ?_⟩
  · exact Nat.le_add_left 1 1023
  · exact Nat.zero_le _
  · exact Nat.zero_le _
  · obtain ⟨b, _, hdec⟩ := Fallible.bind_eq_ok.mp h
    have hlt := sized_of_decode hdec _ (mem_singleton.mpr rfl)
    rw [Segment.Sized, length_replicate] at hlt
    omega

end DmaCpu.Dmx
