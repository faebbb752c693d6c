-- SUMMARY: When the C loader stays within the image and its segments: exactly where no 32-bit sum it relies on wraps.
import DmaCpu.Dmx.CLoaderSpec

/-!
# Soundness of the C loader's checks

`Sound` is what the checks of `dmx_load` are for. Three of its sums wrap: the size
of the tables, the running `need`, and the end of a relocated word. `Contained`
says when none of the three does harm.
-/
namespace DmaCpu.Dmx

variable {σ : Type} (bus : Bus σ) (m : σ) (s : Source) {pos n : Nat}

namespace Source

/-- The image, in exact arithmetic: the tables and the segments fit in `len`, every
    relocated word lies in its segment, every segment index exists. -/
def Fits : Prop :=
  s.tables + s.sizes ≤ s.len.toNat ∧
    (∀ i < s.nRel, s.relSeg i < s.nSeg ∧ s.relRef i < s.nSeg ∧
      (s.relOff i).toNat + 4 ≤ (s.seg (s.relSeg i)).size.toNat) ∧
    (∀ i < s.nWr, s.wrRef i = refAbs ∨ (s.wrRef i).toNat < s.nSeg) ∧
    s.entrySeg < s.nSeg

/-- The word at an address lies inside a placed segment. -/
def Inside (addr : Word) : Prop :=
  ∃ i < s.nSeg, ∃ k, k + 4 ≤ (s.seg i).size.toNat ∧ addr = (s.seg i).place + BitVec.ofNat 32 k

/-- The offset whose end is computed as 0. -/
def RelWraps (i : Nat) : Prop := s.relOff i = 0xFFFFFFFC

/-- The load stops before a wrapped sum takes it astray. Behind an accepted header,
    with the size of the tables taken modulo 2^32:
    every table entry reached ends within `len`; if the segments are copied their
    exact end is within `len`; and a relocation at offset `0xFFFFFFFC` that is
    reached falls on another placed segment, and the load is refused after it. -/
def Contained : Prop :=
  s.HeaderOk → s.TablesOk →
    (∀ i < s.nSeg, (∀ j < i, s.SegOk j) → 28 + 8 * i + 8 ≤ s.len.toNat) ∧
    ((∀ i < s.nSeg, s.SegOk i) → s.NeedOk →
      s.tables % 2 ^ 32 + s.sizes ≤ s.len.toNat ∧
      (∀ i < s.nRel, (∀ j < i, s.RelOk j) → s.relPos i + 12 ≤ s.len.toNat) ∧
      (∀ i < s.nRel, (∀ j ≤ i, s.RelOk j) → s.RelWraps i → s.Inside (s.relTarget i)) ∧
      ((∀ i < s.nRel, s.RelOk i) →
        (∀ i < s.nWr, (∀ j < i, s.WrOk j) → s.wrPos i + 12 ≤ s.len.toNat) ∧
        ((∀ i < s.nWr, s.WrOk i) → s.EntryOk → ∀ i < s.nRel, ¬s.RelWraps i)))

end Source

/-- Success only on an image that fits; whatever the result, no byte at or past
    `len` was looked at and no word outside the placed segments was rebased. -/
def Sound : Prop :=
  let r := (dmxLoad bus s).exec ⟨m, []⟩
  ((∃ entry, r.1 = .ok entry) → s.Fits) ∧
    (∀ off, .look off ∈ r.2.log → off < s.len) ∧
    ∀ addr, .relocate addr ∈ r.2.log → s.Inside addr

/-! ## The log and the result, by the description -/

theorem mem_log (e : Access) : e ∈ ((dmxLoad bus s).exec ⟨m, []⟩).2.log ↔ s.Logs e := by
  rw [(dmxLoad_does bus s).log]
  simp

theorem ok_iff_accepted :
    (∃ entry, ((dmxLoad bus s).exec ⟨m, []⟩).1 = .ok entry) ↔ s.Accepted := by
  constructor
  · rintro ⟨entry, hentry⟩
    by_contra hnot
    obtain ⟨e, he⟩ := (dmxLoad_does bus s).refused hnot ⟨m, []⟩
    rw [he] at hentry
    cases hentry
  · intro h
    exact ⟨_, (dmxLoad_does bus s).ok h _⟩

theorem not_looks_relocate {addr : Word} : ¬Looks pos n (.relocate addr) := by
  rintro ⟨k, _, he⟩
  cases he

theorem not_scans_relocate {base w n : Nat} {ok : Nat → Prop} {addr : Word} :
    ¬Scans base w n ok (.relocate addr) := by
  rintro ⟨i, _, _, h⟩
  exact not_looks_relocate h

theorem logs_relocate {addr : Word} :
    s.Logs (.relocate addr) ↔ s.HeaderOk ∧ s.TablesOk ∧ (∀ i < s.nSeg, s.SegOk i) ∧ s.NeedOk ∧
      ∃ i < s.nRel, (∀ j < i, s.RelOk j) ∧ s.RelOk i ∧ addr = s.relTarget i := by
  have hwr : ¬s.WrLogs (.relocate addr) := by
    rintro (h | ⟨_, _, _, _, he⟩)
    · exact not_scans_relocate h
    · cases he
  simp [Source.Logs, Source.BodyLogs, Source.RelLogs, Source.HeaderOk, not_looks_relocate, not_scans_relocate,
    hwr, and_assoc]

/-- The accesses behind the header stay below `len` exactly when what is reached ends there. -/
theorem body_below (hlen : 28 ≤ s.len.toNat) (htab : s.TablesOk) :
    (∀ off, s.BodyLogs (.look off) → off < s.len) ↔
      (∀ i < s.nSeg, (∀ j < i, s.SegOk j) → 28 + 8 * i + 8 ≤ s.len.toNat) ∧
      ((∀ i < s.nSeg, s.SegOk i) → s.NeedOk →
        s.tables % 2 ^ 32 + s.sizes ≤ s.len.toNat ∧
        (∀ i < s.nRel, (∀ j < i, s.RelOk j) → s.relPos i + 12 ≤ s.len.toNat) ∧
        ((∀ i < s.nRel, s.RelOk i) →
          ∀ i < s.nWr, (∀ j < i, s.WrOk j) → s.wrPos i + 12 ≤ s.len.toNat)) := by
  constructor
  · intro h
    have hsegs := (scans_below hlen).mp fun off hoff => h off (.inl hoff)
    refine ⟨hsegs, fun hseg hneed => ?_⟩
    have hrest := fun off hoff => h off (.inr ⟨hseg, hneed, hoff⟩)
    have hrel := (scans_below (scan_end_le hlen hsegs hseg)).mp fun off hoff =>
      hrest off (.inr (.inl (.inl hoff)))
    refine ⟨(looks_below htab).mp fun off hoff => hrest off (.inl hoff), hrel, fun hrelOk => ?_⟩
    exact (scans_below (scan_end_le (scan_end_le hlen hsegs hseg) hrel hrelOk)).mp fun off hoff =>
      hrest off (.inr (.inr ⟨hrelOk, .inl hoff⟩))
  · rintro ⟨hsegs, hrest⟩ off (hoff | ⟨hseg, hneed, hoff⟩)
    · exact (scans_below hlen).mpr hsegs off hoff
    obtain ⟨hcopy, hrel, hwr⟩ := hrest hseg hneed
    have hrelTab := scan_end_le hlen hsegs hseg
    rcases hoff with hoff | (hoff | ⟨_, _, _, _, he⟩) | ⟨hrelOk, hoff | ⟨_, _, _, _, he⟩⟩
    · exact (looks_below htab).mpr hcopy off hoff
    · exact (scans_below hrelTab).mpr hrel off hoff
    · cases he
    · exact (scans_below (scan_end_le hrelTab hrel hrelOk)).mpr (hwr hrelOk) off hoff
    · cases he

theorem header_below (hlen : 28 ≤ s.len.toNat) (hpos : pos + n ≤ 28) {off : Word}
    (h : Looks pos n (.look off)) : off < s.len :=
  (looks_below (by omega)).mpr (by omega) off h

/-- A relocation whose end does not wrap lies in its own segment. -/
theorem relOff_add_le {i : Nat} (hok : s.RelOk i) (hwrap : ¬s.RelWraps i) :
    (s.relOff i).toNat + 4 ≤ (s.seg (s.relSeg i)).size.toNat := by
  obtain ⟨_, _, halign, hle⟩ := hok
  have hmod := toNat_mod_four halign
  have hne : (s.relOff i).toNat ≠ 0xFFFFFFFC := fun h => hwrap (BitVec.eq_of_toNat_eq h)
  have hsum : (s.relOff i + 4).toNat = (s.relOff i).toNat + 4 := by
    exact Nat.mod_eq_of_lt (show (s.relOff i).toNat + 4 < 2 ^ 32 by omega)
  rw [← hsum]
  exact BitVec.le_def.mp hle

theorem inside_relTarget {i : Nat} (hok : s.RelOk i) (hwrap : ¬s.RelWraps i) :
    s.Inside (s.relTarget i) := by
  refine ⟨s.relSeg i, hok.1, (s.relOff i).toNat, relOff_add_le s hok hwrap, ?_⟩
  rw [BitVec.ofNat_toNat]
  rfl

theorem not_relWraps_of_fits (h : s.Fits) : ∀ i < s.nRel, ¬s.RelWraps i := by
  intro i hi hwrap
  have hle := (h.2.1 i hi).2.2
  rw [show s.relOff i = 0xFFFFFFFC from hwrap] at hle
  exact absurd hle (by rw [show (0xFFFFFFFC : Word).toNat = 0xFFFFFFFC from rfl]; omega)

theorem sound_iff_contained : Sound bus m s ↔ s.Contained := by
  simp only [Sound, mem_log, ok_iff_accepted, logs_relocate]
  constructor
  · rintro ⟨hfits, hlook, hreloc⟩ hhdr htab
    have hbody := (body_below s hhdr.1 htab).mp fun off hoff =>
      hlook off ⟨hhdr.1, .inr ⟨hhdr.2.1, .inr ⟨hhdr.2.2.1, .inr ⟨hhdr.2.2.2, htab, hoff⟩⟩⟩⟩
    refine ⟨hbody.1, fun hseg hneed => ?_⟩
    obtain ⟨hcopy, hrel, hwr⟩ := hbody.2 hseg hneed
    refine ⟨hcopy, hrel, fun i hi hok _ => ?_, fun hrelOk => ⟨hwr hrelOk, fun hwrOk hentry => ?_⟩⟩
    · exact hreloc _ ⟨hhdr, htab, hseg, hneed, i, hi, fun j hj => hok j (by omega),
        hok i (Nat.le_refl i), rfl⟩
    · exact not_relWraps_of_fits s (hfits ⟨hhdr, htab, hseg, hneed, hrelOk, hwrOk, hentry⟩)
  · intro h
    refine ⟨?_, ?_, ?_⟩
    · rintro ⟨hhdr, htab, hseg, hneed, hrelOk, hwrOk, hentry⟩
      obtain ⟨hsegs, hrest⟩ := h hhdr htab
      obtain ⟨hcopy, hrel, _, htail⟩ := hrest hseg hneed
      obtain ⟨hwr, hwrap⟩ := htail hrelOk
      have hend : s.tables ≤ s.len.toNat :=
        scan_end_le (scan_end_le (scan_end_le hhdr.1 hsegs hseg) hrel hrelOk) hwr hwrOk
      rw [Nat.mod_eq_of_lt (by omega)] at hcopy
      refine ⟨hcopy, fun i hi => ?_, hwrOk, hentry.1⟩
      exact ⟨(hrelOk i hi).1, (hrelOk i hi).2.1,
        relOff_add_le s (hrelOk i hi) (hwrap hwrOk hentry i hi)⟩
    · rintro off ⟨hlen, hoff | ⟨hmagic, hoff | ⟨hflags, hoff | ⟨hmax, htab, hoff⟩⟩⟩⟩
      · exact header_below s hlen (by omega) hoff
      · exact header_below s hlen (by omega) hoff
      · exact header_below s hlen (by omega) hoff
      · obtain ⟨hsegs, hrest⟩ := h ⟨hlen, hmagic, hflags, hmax⟩ htab
        refine (body_below s hlen htab).mpr ⟨hsegs, fun hseg hneed => ?_⟩ off hoff
        obtain ⟨hcopy, hrel, _, htail⟩ := hrest hseg hneed
        exact ⟨hcopy, hrel, fun hrelOk => (htail hrelOk).1⟩
    · rintro addr ⟨hhdr, htab, hseg, hneed, i, hi, hbefore, hok, rfl⟩
      by_cases hwrap : s.RelWraps i
      · refine ((h hhdr htab).2 hseg hneed).2.2.1 i hi (fun j hj => ?_) hwrap
        rcases Nat.eq_or_lt_of_le hj with rfl | hlt
        · exact hok
        · exact hbefore j hlt
      · exact inside_relTarget s hok hwrap

/-- One segment of eight bytes and one relocation, of the word that would start
    four bytes before the end of the address space. -/
def wrappedReloc : Source where
  image := ofWords [magic, 0, 1, 1, 0, 0, 0, 0x20000000, 8, 0, 0xFFFFFFFC, 0, 0, 0]
  len := 56
  pl := none

/-- The load succeeds, and the word it rebased is the one before the segment. -/
theorem dmxLoad_wrappedReloc :
    ¬Sound ⟨fun m a => m a, Function.update⟩ (fun _ : Word => (0 : Word)) wrappedReloc := by
  have hok : ((dmxLoad ⟨fun m a => m a, Function.update⟩ wrappedReloc).exec
      ⟨fun _ : Word => (0 : Word), []⟩).1 = .ok 0x20000000 := by decide +kernel
  intro h
  have hle := ((h.1 ⟨_, hok⟩).2.1 0 (by decide +kernel)).2.2
  exact absurd hle (by decide +kernel)

end DmaCpu.Dmx
