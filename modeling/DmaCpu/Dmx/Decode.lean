-- SUMMARY: What `Decode` accepts: exactly the byte strings that are the tables and the segments of a valid image.
import DmaCpu.Lib.Fallible
import DmaCpu.Dmx.Image

/-!
# Decoding, described

`Reads x raw pos p n v` describes a reader: from position `pos` it reads `n` bytes
and returns `v`, provided `p` holds and the bytes are there; otherwise it fails or
leaves the sticky error set. `decode_eq_ok_iff` puts the parts together.
-/
namespace DmaCpu.Dmx

open Fallible

/-! ## Validation -/

theorem guard_eq_ok {α : Type} {c : Prop} [Decidable c] {e : FormatError}
    {x : Except FormatError α} {a : α} :
    (if c then .error e else x) = .ok a ↔ ¬c ∧ x = .ok a := by
  split
  · rename_i h
    exact ⟨(nomatch ·), fun h' => absurd h h'.1⟩
  · rename_i h
    exact ⟨fun h' => ⟨h, h'⟩, fun h' => h'.2⟩

theorem checkAll_eq_ok {α : Type} {check : Nat → α → Except FormatError Unit} {P : α → Prop}
    (h : ∀ i a, check i a = .ok () ↔ P a) (i : Nat) (as : List α) :
    checkAll check i as = .ok () ↔ ∀ a ∈ as, P a := by
  induction as generalizing i with
  | nil => simp [checkAll]
  | cons a as ih =>
    rw [checkAll, bind_eq_ok, List.forall_mem_cons, ← h i a, ← ih (i + 1)]
    exact ⟨fun ⟨_, h₁, h₂⟩ => ⟨h₁, h₂⟩, fun ⟨h₁, h₂⟩ => ⟨(), h₁, h₂⟩⟩

namespace Segment

def Valid (s : Segment) : Prop := s.data.length % 4 = 0 ∧ s.linkAddr % 4 = 0

end Segment

namespace Image

variable (im : Image)

/-- The end of the relocated word is computed in 32 bits. -/
def RelocValid (r : Reloc) : Prop :=
  r.seg < im.nSeg ∧ r.ref < im.nSeg ∧ r.off % 4 = 0 ∧ r.off + 4 ≤ im.sizeOf r.seg

def WriteValid (w : Write) : Prop := (w.ref = refAbs ∨ w.ref < im.nSeg) ∧ w.addr % 4 = 0

def EntryValid : Prop :=
  im.entrySeg < im.nSeg ∧ im.entryOff % 8 = 0 ∧ im.entryOff < im.sizeOf im.entrySeg

structure Valid : Prop where
  segments : ∀ s ∈ im.segments, s.Valid
  relocs : ∀ r ∈ im.relocs, im.RelocValid r
  writes : ∀ w ∈ im.writes, im.WriteValid w
  entry : im.EntryValid

theorem checkSegment_eq_ok (i : Nat) (s : Segment) : checkSegment i s = .ok () ↔ s.Valid := by
  rw [checkSegment, guard_eq_ok, guard_eq_ok, not_not, not_not]
  exact and_congr_right fun _ => and_iff_left rfl

theorem checkReloc_eq_ok (i : Nat) (r : Reloc) : im.checkReloc i r = .ok () ↔ im.RelocValid r := by
  rw [checkReloc, guard_eq_ok, guard_eq_ok, not_or, not_or, not_not, BitVec.not_le, BitVec.not_le,
    BitVec.not_lt, and_assoc]
  exact and_congr_right fun _ => and_congr_right fun _ => and_iff_left rfl

theorem checkWrite_eq_ok (i : Nat) (w : Write) : im.checkWrite i w = .ok () ↔ im.WriteValid w := by
  rw [checkWrite, guard_eq_ok, guard_eq_ok, not_and_or, not_not, not_not, BitVec.not_le]
  exact and_congr_right fun _ => and_iff_left rfl

theorem checkEntry_eq_ok : im.checkEntry = .ok () ↔ im.EntryValid := by
  rw [checkEntry, guard_eq_ok, guard_eq_ok, not_or, not_not, BitVec.not_le, BitVec.not_le]
  exact and_congr_right fun _ => and_iff_left rfl

theorem validate_eq_ok : im.validate = .ok () ↔ im.Valid := by
  have hunit : ∀ {x y : Except FormatError Unit},
      (x.bind fun _ => y) = .ok () ↔ x = .ok () ∧ y = .ok () := by
    intro x y
    rw [bind_eq_ok]
    exact ⟨fun ⟨_, h₁, h₂⟩ => ⟨h₁, h₂⟩, fun ⟨h₁, h₂⟩ => ⟨(), h₁, h₂⟩⟩
  show (Except.bind _ fun _ => Except.bind _ fun _ => Except.bind _ fun _ => _) = _ ↔ _
  rw [hunit, hunit, hunit, checkAll_eq_ok checkSegment_eq_ok, checkAll_eq_ok im.checkReloc_eq_ok,
    checkAll_eq_ok im.checkWrite_eq_ok, checkEntry_eq_ok]
  exact ⟨fun ⟨h₁, h₂, h₃, h₄⟩ => ⟨h₁, h₂, h₃, h₄⟩, fun h => ⟨h.1, h.2, h.3, h.4⟩⟩

end Image

/-! ## Readers -/

section Readers

variable {α β : Type} {x : Dec α}

structure Reads (x : Dec α) (raw : List Byte) (pos : Nat) (p : Prop) (n : Nat) (v : α) : Prop where
  ok : p → pos + n ≤ raw.length → x ⟨raw, pos, none⟩ = .ok (v, ⟨raw, pos + n, none⟩)
  fails : pos ≤ raw.length → ¬(p ∧ pos + n ≤ raw.length) →
    ∀ a r, x ⟨raw, pos, none⟩ = .ok (a, r) → r.err.isSome
  sticky : ∀ r, r.err.isSome → ∀ a r', x r = .ok (a, r') → r'.err.isSome

theorem dec_bind (x : Dec α) (f : α → Dec β) (r : Reader) :
    (x >>= f) r = (x r).bind fun ar => f ar.1 ar.2 := rfl

variable {raw : List Byte} {pos : Nat}

namespace Reads

theorem pure (a : α) : Reads (Pure.pure a : Dec α) raw pos True 0 a where
  ok _ _ := rfl
  fails hpos h := absurd ⟨trivial, hpos⟩ h
  sticky r hr _ _ h := by
    cases h
    exact hr

theorem reject (c : Prop) [Decidable c] (e : FormatError) :
    Reads (Dec.reject c e) raw pos (¬c) 0 () where
  ok hc _ := by rw [Dec.reject, if_neg hc]; rfl
  fails hpos h a r hr := by
    have hc : c := by
      by_contra hc
      exact h ⟨hc, hpos⟩
    rw [Dec.reject, if_pos hc] at hr
    cases hr
  sticky r hr a r' h := by
    unfold Dec.reject at h
    split at h
    · cases h
    · cases h
      exact hr

theorem u32 : Reads Dec.u32 raw pos True 4 (le32 raw pos) where
  ok _ hle := by
    simp [Dec.u32, if_neg (Nat.not_lt.mpr hle)]
  fails _ h a r hr := by
    have hlt : raw.length < pos + 4 := Nat.lt_of_not_le fun hle => h ⟨trivial, hle⟩
    simp only [Dec.u32, Option.isSome_none, Bool.false_eq_true, if_false, if_pos hlt] at hr
    cases hr
    rfl
  sticky r hr a r' h := by
    rw [Dec.u32, if_pos hr] at h
    cases h
    exact hr

theorem bytes (n : Word) :
    Reads (Dec.bytes n) raw pos True n.toNat ((raw.drop pos).take n.toNat) where
  ok _ hle := by
    simp [Dec.bytes, if_neg (Nat.not_lt.mpr hle)]
  fails _ h a r hr := by
    have hlt : raw.length < pos + n.toNat := Nat.lt_of_not_le fun hle => h ⟨trivial, hle⟩
    simp only [Dec.bytes, Option.isSome_none, Bool.false_eq_true, if_false, if_pos hlt] at hr
    cases hr
    rfl
  sticky r hr a r' h := by
    rw [Dec.bytes, if_pos hr] at h
    cases h
    exact hr

/-- What follows is described for every value, because after a failed read it is run
    on zeros. -/
theorem bind {f : α → Dec β} {p : Prop} {q : α → Prop} {n : Nat} {m : α → Nat}
    {v : α} {w : α → β} (hx : Reads x raw pos p n v)
    (hf : ∀ a, Reads (f a) raw (pos + n) (q a) (m a) (w a)) :
    Reads (x >>= f) raw pos (p ∧ q v) (n + m v) (w v) where
  ok h hle := by
    rw [dec_bind, hx.ok h.1 (by omega), ← Nat.add_assoc]
    exact (hf v).ok h.2 (by omega)
  fails hpos h b r hr := by
    rw [dec_bind] at hr
    by_cases hp : p ∧ pos + n ≤ raw.length
    · rw [hx.ok hp.1 hp.2] at hr
      exact (hf v).fails hp.2 (fun h' => h ⟨⟨hp.1, h'.1⟩, by omega⟩) b r hr
    · obtain ⟨⟨a, r₁⟩, hxr, hfr⟩ := bind_eq_ok.mp hr
      exact (hf a).sticky r₁ (hx.fails hpos hp a r₁ hxr) b r hfr
  sticky r hr b r' h := by
    rw [dec_bind, bind_eq_ok] at h
    obtain ⟨⟨a, r₁⟩, hxr, hfr⟩ := h
    exact (hf a).sticky r₁ (hx.sticky r hr a r₁ hxr) b r' hfr

theorem congr {p q : Prop} {n m : Nat} {v w : α} (h : Reads x raw pos p n v)
    (hp : p ↔ q) (hn : n = m) (hv : v = w) : Reads x raw pos q m w := by
  subst hn hv
  exact ⟨fun hq => h.ok (hp.mpr hq), fun hpos hq => h.fails hpos fun h' => hq ⟨hp.mp h'.1, h'.2⟩,
    h.sticky⟩

theorem range_succ_map {γ : Type} (g : Nat → γ) (k : Nat) :
    (List.range (k + 1)).map g = g 0 :: (List.range k).map fun i => g (i + 1) := by
  rw [List.range_succ_eq_map, List.map_cons, List.map_map]
  rfl

/-- A loop of readers of a fixed width. -/
theorem many {w : Nat} {v : Nat → α} (h : ∀ pos, Reads x raw pos True w (v pos))
    (k : Nat) (pos : Nat) :
    Reads (Dec.many x k) raw pos True (w * k) ((List.range k).map fun i => v (pos + w * i)) := by
  induction k generalizing pos with
  | zero => exact Reads.pure []
  | succ k ih =>
    apply ((h pos).bind fun a => (ih (pos + w)).bind fun as => Reads.pure (a :: as)).congr
    · simp
    · rw [Nat.mul_succ]
      omega
    · rw [range_succ_map]
      congr 1
      apply List.map_congr_left
      intro i _
      rw [Nat.mul_succ, Nat.add_assoc, Nat.add_comm w]

theorem segHeader :
    Reads Dec.segHeader raw pos True 8 (le32 raw pos, le32 raw (pos + 4)) :=
  (u32.bind fun link => u32.bind fun size => Reads.pure (link, size)).congr
    (by simp only [and_self]) rfl rfl

theorem reloc :
    Reads Dec.reloc raw pos True 12 ⟨le32 raw pos, le32 raw (pos + 4), le32 raw (pos + 8)⟩ :=
  (u32.bind fun seg => u32.bind fun off => u32.bind fun ref =>
    Reads.pure (⟨seg, off, ref⟩ : Reloc)).congr (by simp only [and_self]) rfl rfl

theorem write :
    Reads Dec.write raw pos True 12 ⟨le32 raw pos, le32 raw (pos + 4), le32 raw (pos + 8)⟩ :=
  (u32.bind fun addr => u32.bind fun value => u32.bind fun ref =>
    Reads.pure (⟨addr, value, ref⟩ : Write)).congr (by simp only [and_self]) rfl rfl

end Reads

end Readers

/-! ## The layout of an image -/

/-- The segments whose data lie one after the other from a position on. -/
def segmentsAt (raw : List Byte) : Nat → List (Word × Word) → List Segment
  | _, [] => []
  | pos, (link, size) :: rest =>
    ⟨link, (raw.drop pos).take size.toNat⟩ :: segmentsAt raw (pos + size.toNat) rest

theorem Reads.segData {raw : List Byte} (headers : List (Word × Word)) (pos : Nat) :
    Reads (Dec.segData headers) raw pos True (headers.map fun h => h.2.toNat).sum
      (segmentsAt raw pos headers) := by
  induction headers generalizing pos with
  | nil => exact Reads.pure []
  | cons h hs ih =>
    apply ((Reads.bytes h.2).bind fun data => (ih (pos + h.2.toNat)).bind fun segs =>
      Reads.pure (⟨h.1, data⟩ :: segs)).congr
    · simp
    · rw [Nat.add_zero, List.map_cons, List.sum_cons]
    · rfl

namespace Raw

variable (raw : List Byte)

def nSeg : Nat := (le32 raw 8).toNat
def nRel : Nat := (le32 raw 12).toNat
def nWr : Nat := (le32 raw 16).toNat

def headers : List (Word × Word) :=
  (List.range (nSeg raw)).map fun i => (le32 raw (28 + 8 * i), le32 raw (28 + 8 * i + 4))

/-- Where the relocation table, the write table and the segment data start. -/
def relTab : Nat := 28 + 8 * nSeg raw
def wrTab : Nat := relTab raw + 12 * nRel raw
def dataPos : Nat := wrTab raw + 12 * nWr raw

def sizes : Nat := ((headers raw).map fun h => h.2.toNat).sum

def relocAt (pos : Nat) : Reloc := ⟨le32 raw pos, le32 raw (pos + 4), le32 raw (pos + 8)⟩
def writeAt (pos : Nat) : Write := ⟨le32 raw pos, le32 raw (pos + 4), le32 raw (pos + 8)⟩

/-- The image that the bytes spell. -/
def image : Image where
  segments := segmentsAt raw (dataPos raw) (headers raw)
  relocs := (List.range (nRel raw)).map fun i => relocAt raw (relTab raw + 12 * i)
  writes := (List.range (nWr raw)).map fun i => writeAt raw (wrTab raw + 12 * i)
  entrySeg := le32 raw 20
  entryOff := le32 raw 24

/-- Magic, no flags, and table sizes within the decoder's bounds. -/
def HeaderOk : Prop :=
  le32 raw 0 = magic ∧ le32 raw 4 = 0 ∧ nSeg raw ≤ 1024 ∧ nRel raw ≤ 0x100000 ∧ nWr raw ≤ 0x10000

end Raw

theorem reads_image (raw : List Byte) :
    Reads Dec.image raw 0 (Raw.HeaderOk raw) (Raw.dataPos raw + Raw.sizes raw) (Raw.image raw) := by
  have hbounds : ¬((1024 : Word) < le32 raw 8 ∨ (0x100000 : Word) < le32 raw 12 ∨
      (0x10000 : Word) < le32 raw 16) ↔
      Raw.nSeg raw ≤ 1024 ∧ Raw.nRel raw ≤ 0x100000 ∧ Raw.nWr raw ≤ 0x10000 := by
    rw [not_or, not_or, BitVec.not_lt, BitVec.not_lt, BitVec.not_lt]
    rfl
  apply (Reads.u32.bind fun _ => (Reads.reject _ _).bind fun _ => Reads.u32.bind fun _ =>
    (Reads.reject _ _).bind fun _ => Reads.u32.bind fun nSeg => Reads.u32.bind fun nRel =>
    Reads.u32.bind fun nWr => Reads.u32.bind fun _ => Reads.u32.bind fun _ =>
    (Reads.reject _ _).bind fun _ =>
    (Reads.many (fun _ => Reads.segHeader) nSeg.toNat _).bind fun headers =>
    (Reads.many (fun _ => Reads.reloc) nRel.toNat _).bind fun _ =>
    (Reads.many (fun _ => Reads.write) nWr.toNat _).bind fun _ =>
    (Reads.segData headers _).bind fun _ => Reads.pure _).congr
  · simp only [hbounds, not_not, true_and, and_true, Raw.HeaderOk]
  · simp only [Nat.zero_add, Nat.add_zero, Nat.reduceAdd, Raw.dataPos, Raw.wrTab, Raw.relTab,
      Raw.sizes, Raw.headers, Raw.nSeg, Raw.nRel, Raw.nWr]
    omega
  · rfl

/-- `Decode` accepts exactly the byte strings made of a plausible header, the tables
    and the segment data of a valid image, and nothing behind them. -/
theorem decode_eq_ok_iff {raw : List Byte} {im : Image} :
    decode raw = .ok im ↔ Raw.HeaderOk raw ∧ Raw.dataPos raw + Raw.sizes raw = raw.length ∧
      im = Raw.image raw ∧ im.Valid := by
  have h := reads_image raw
  constructor
  · intro hdec
    obtain ⟨⟨im', r⟩, hread, hrest⟩ := bind_eq_ok.mp hdec
    by_cases hok : Raw.HeaderOk raw ∧ 0 + (Raw.dataPos raw + Raw.sizes raw) ≤ raw.length
    · rw [h.ok hok.1 hok.2, Nat.zero_add] at hread
      cases hread
      obtain ⟨hpos, hrest⟩ := guard_eq_ok.mp hrest
      obtain ⟨_, hvalid, him⟩ := bind_eq_ok.mp hrest
      cases him
      exact ⟨hok.1, not_not.mp hpos, rfl, (Image.validate_eq_ok _).mp hvalid⟩
    · have herr := h.fails (Nat.zero_le _) hok im' r hread
      obtain ⟨e, he⟩ := Option.isSome_iff_exists.mp herr
      simp only [he] at hrest
      cases hrest
  · rintro ⟨hhdr, hlen, rfl, hvalid⟩
    apply bind_eq_ok.mpr
    refine ⟨_, h.ok hhdr (by omega), ?_⟩
    simp only [Nat.zero_add, hlen, ne_eq, not_true_eq_false, if_false]
    exact bind_eq_ok.mpr ⟨(), (Image.validate_eq_ok _).mpr hvalid, rfl⟩

end DmaCpu.Dmx
