-- SUMMARY: The host's loader part by part: placement, relocation, and what `LoadBytes` accepts and leaves in memory.
import Mathlib.Data.List.GetD
import DmaCpu.Dmx.Load
import DmaCpu.Dmx.Decode

/-!
# The host's loader, described

One description per loop of `Load`. A span is a load address and a length, as
words; whether `LoadBytes` accepts a span depends only on the sizes of the
memories and on the ranges loaded before.
-/
namespace DmaCpu.Dmx

open Emu List
open BitVec (lt_def le_def toNat_ofNat toNat_add)

/-! ## Placement -/

/-- `place` and `delta` of every segment. -/
def places (pl : Placement) (i : Nat) (ss : List Segment) : List (Word × Word) :=
  ss.mapIdx fun k s => (pl.addr (i + k) s, pl.addr (i + k) s - s.linkAddr)

theorem places_cons (pl : Placement) (i : Nat) (s : Segment) (ss : List Segment) :
    places pl i (s :: ss) = (pl.addr i s, pl.addr i s - s.linkAddr) :: places pl (i + 1) ss := by
  simp [places, Nat.add_assoc, Nat.add_comm 1]

variable {ss : List Segment} {i : Nat} {pl : Placement}

theorem getElem?_places {s : Segment} (h : ss[i]? = some s) :
    (places pl 0 ss)[i]? = some (pl.addr i s, pl.addr i s - s.linkAddr) := by
  rw [places, getElem?_mapIdx, h, Option.map_some, Nat.zero_add]

def AllAligned (pl : Placement) (ss : List Segment) : Prop := ∀ p ∈ places pl 0 ss, p.1 % 4 = 0

theorem placeAll_of_aligned
    (h : ∀ p ∈ places pl i ss, p.1 % 4 = 0) : placeAll pl i ss = .ok (places pl i ss) := by
  induction ss generalizing i with
  | nil => rfl
  | cons s ss ih =>
    rw [places_cons] at h ⊢
    obtain ⟨hs, hss⟩ := forall_mem_cons.mp h
    rw [placeAll, if_neg (not_not.mpr hs), ih hss]
    rfl

theorem placeAll_of_unaligned
    (h : ¬∀ p ∈ places pl i ss, p.1 % 4 = 0) : ∃ e, placeAll pl i ss = .error (.error e) := by
  induction ss generalizing i with
  | nil => exact absurd (fun p hp => by cases hp) h
  | cons s ss ih =>
    rw [places_cons] at h
    by_cases hs : pl.addr i s % 4 = 0
    · obtain ⟨e, he⟩ := ih fun hss => h (forall_mem_cons.mpr ⟨hs, hss⟩)
      exact ⟨e, by rw [placeAll, if_neg (not_not.mpr hs), he]; rfl⟩
    · exact ⟨_, by rw [placeAll, if_pos hs]⟩

theorem apart_ne_panic (es : List Extent) : apart es ≠ .error .panic := by
  fun_induction apart es with
  | case1 => simp
  | case2 a b es _ ih => exact ih
  | case3 => simp

theorem mem_extents {ps : List Word} {e : Extent}
    (he : e ∈ extents i ss ps) : ∃ k s p, ss[k]? = some s ∧ ps[k]? = some p ∧ s.data.length ≠ 0 ∧
      e = ⟨i + k, p, p + BitVec.ofNat 32 s.data.length⟩ := by
  fun_induction extents i ss ps with
  | case1 i s ss p ps _ ih =>
    obtain ⟨k, t, q, ht, hq, hne, rfl⟩ := ih he
    exact ⟨k + 1, t, q, ht, hq, hne, by rw [Nat.add_assoc, Nat.add_comm 1]⟩
  | case2 i s ss p ps hne ih =>
    rcases mem_cons.mp he with rfl | he
    · exact ⟨0, s, p, rfl, rfl, hne, rfl⟩
    · obtain ⟨k, t, q, ht, hq, hne, rfl⟩ := ih he
      exact ⟨k + 1, t, q, ht, hq, hne, by rw [Nat.add_assoc, Nat.add_comm 1]⟩
  | case3 => cases he

theorem pairwise_extents (i : Nat) (ss : List Segment) (ps : List Word) :
    (extents i ss ps).Pairwise fun a b => a.idx < b.idx := by
  fun_induction extents i ss ps with
  | case1 i s ss p ps _ ih => exact ih
  | case2 i s ss p ps _ ih =>
    refine pairwise_cons.mpr ⟨fun e he => ?_, ih⟩
    obtain ⟨k, _, _, _, _, _, rfl⟩ := mem_extents he
    exact Nat.lt_of_lt_of_le (Nat.lt_succ_self i) (Nat.le_add_right _ _)
  | case3 => exact List.Pairwise.nil

/-- Sorted extents that are disjoint pass. -/
theorem apart_of_sorted {es : List Extent} (hne : ∀ e ∈ es, e.start < e.stop)
    (hsorted : es.Pairwise fun a b => a.start ≤ b.start)
    (hdisj : es.Pairwise fun a b => a.stop ≤ b.start ∨ b.stop ≤ a.start) : apart es = .ok () := by
  fun_induction apart es with
  | case1 a b es hlt =>
    have hle := (pairwise_cons.mp hsorted).1 b mem_cons_self
    have hb := hne b (mem_cons_of_mem _ mem_cons_self)
    rw [lt_def] at hlt hb
    rw [le_def] at hle
    rcases (pairwise_cons.mp hdisj).1 b mem_cons_self with h | h <;>
      rw [le_def] at h <;> omega
  | case2 a b es _ ih =>
    exact ih (forall_mem_cons.mp hne).2 (pairwise_cons.mp hsorted).2
      (pairwise_cons.mp hdisj).2
  | case3 => rfl

/-! ## Relocation -/

section

variable (b : List Byte) (off : Nat) (v : Word)

theorem length_put32 : (put32 b off v).length = b.length :=
  length_mapIdx

theorem getD_put32 {k : Nat} (hk : k < b.length) :
    (put32 b off v).getD k 0 =
      if off ≤ k ∧ k < off + 4 then v.extractLsb' (8 * (k - off)) 8 else b.getD k 0 := by
  rw [getD_eq_getElem?_getD, getD_eq_getElem?_getD, put32, getElem?_mapIdx,
    getElem?_eq_getElem hk]
  rfl

theorem le32_put32_same (h : off + 4 ≤ b.length) :
    le32 (put32 b off v) off = v := by
  unfold le32
  rw [getD_put32 b off v (by omega), getD_put32 b off v (by omega), getD_put32 b off v (by omega),
    getD_put32 b off v (by omega), if_pos (by omega), if_pos (by omega), if_pos (by omega),
    if_pos (by omega), Nat.add_sub_cancel_left, Nat.add_sub_cancel_left, Nat.add_sub_cancel_left,
    Nat.sub_self]
  exact Ram.append_bytes v

end

theorem le32_put32_apart (b : List Byte) {off off' : Nat} (v : Word) (h : off' + 4 ≤ b.length)
    (ha : off' + 4 ≤ off ∨ off + 4 ≤ off') : le32 (put32 b off v) off' = le32 b off' := by
  unfold le32
  rw [getD_put32 b off v (by omega), getD_put32 b off v (by omega), getD_put32 b off v (by omega),
    getD_put32 b off v (by omega), if_neg (by omega), if_neg (by omega), if_neg (by omega),
    if_neg (by omega)]

/-- A byte is the byte of its word. -/
theorem getD_eq_extract (b : List Byte) (k : Nat) :
    b.getD k 0 = (le32 b (4 * (k / 4))).extractLsb' (8 * (k % 4)) 8 := by
  rw [le32, Ram.extract_append _ _ _ _ (Nat.mod_lt k (by omega))]
  have hk := Nat.div_add_mod k 4
  generalize 4 * (k / 4) = q at *
  rcases (by omega : k % 4 = 0 ∨ k % 4 = 1 ∨ k % 4 = 2 ∨ k % 4 = 3) with h | h | h | h <;>
    rw [h] at hk ⊢ <;> rw [← hk] <;> rfl

/-- What the relocations add to the word at offset `w` of segment `i`. -/
def rebase (delta : List Word) (rs : List Reloc) (i w : Nat) : Word :=
  (rs.map fun r =>
    if r.seg.toNat = i ∧ r.off.toNat = w then delta.getD r.ref.toNat 0 else 0).sum

/-- The offset whose end is computed as 0. -/
def Reloc.Wraps (r : Reloc) : Prop := r.off = 0xFFFFFFFC

/-- A relocation that has passed validation, against buffers of these lengths. -/
structure RelocFits (lens : List Nat) (n : Nat) (r : Reloc) : Prop where
  seg : r.seg.toNat < lens.length
  ref : r.ref.toNat < n
  align : r.off.toNat % 4 = 0
  size : lens.getD r.seg.toNat 0 < 2 ^ 32
  le : (r.off + 4).toNat ≤ lens.getD r.seg.toNat 0

namespace RelocFits

variable {lens : List Nat} {r : Reloc} {delta : List Word} {bufs : List (List Byte)}

theorem exact {n : Nat} (h : RelocFits lens n r) (hw : ¬r.Wraps) :
    (r.off + 4).toNat = r.off.toNat + 4 := by
  have halign := h.align
  have hne : r.off.toNat ≠ 0xFFFFFFFC := fun h => hw (BitVec.eq_of_toNat_eq h)
  exact Nat.mod_eq_of_lt (show r.off.toNat + 4 < 2 ^ 32 by omega)

theorem relocate_eq (h : RelocFits lens delta.length r) (hlens : bufs.map List.length = lens) :
    relocate delta bufs r =
      if r.off ≤ r.off + 4 ∧ (r.off + 4).toNat ≤ (bufs.getD r.seg.toNat []).length then
        .ok (bufs.set r.seg.toNat (put32 (bufs.getD r.seg.toNat []) r.off.toNat
          (le32 (bufs.getD r.seg.toNat []) r.off.toNat + delta.getD r.ref.toNat 0)))
      else .error .panic := by
  subst hlens
  have hseg := h.seg
  rw [length_map] at hseg
  unfold relocate
  rw [getElem?_eq_getElem hseg, getElem?_eq_getElem h.ref, getD_eq_getElem _ _ hseg,
    getD_eq_getElem _ _ h.ref]

theorem panic (h : RelocFits lens delta.length r) (hlens : bufs.map List.length = lens)
    (hw : r.Wraps) : relocate delta bufs r = .error .panic := by
  rw [h.relocate_eq hlens, if_neg]
  rw [show r.off = 0xFFFFFFFC from hw]
  exact fun h' => absurd h'.1 (by decide)

theorem length_getD (hlens : bufs.map List.length = lens) (i : Nat) :
    (bufs.getD i []).length = lens.getD i 0 := by
  subst hlens
  rw [getD_eq_getElem?_getD, getD_eq_getElem?_getD, getElem?_map]
  cases bufs[i]? <;> rfl

/-- A relocation that does not wrap is done, in place. -/
theorem relocate_ok (h : RelocFits lens delta.length r) (hlens : bufs.map List.length = lens)
    (hw : ¬r.Wraps) :
    relocate delta bufs r = .ok (bufs.set r.seg.toNat (put32 (bufs.getD r.seg.toNat []) r.off.toNat
      (le32 (bufs.getD r.seg.toNat []) r.off.toNat + delta.getD r.ref.toNat 0))) := by
  have hexact := h.exact hw
  have hle := h.le
  have hlen := length_getD hlens r.seg.toNat
  refine (h.relocate_eq hlens).trans (if_pos ?_)
  rw [le_def]
  omega

theorem map_length_set (hlens : bufs.map List.length = lens) (i w : Nat) (v : Word) :
    (bufs.set i (put32 (bufs.getD i []) w v)).map List.length = lens := by
  rw [map_set, length_put32, length_getD hlens, hlens]
  rcases Nat.lt_or_ge i lens.length with hi | hi
  · rw [getD_eq_getElem _ _ hi, set_getElem_self]
  · exact set_eq_of_length_le hi

/-- A relocation that does not wrap adds its displacement to its word. -/
theorem ok (h : RelocFits lens delta.length r) (hlens : bufs.map List.length = lens)
    (hw : ¬r.Wraps) :
    ∃ bufs', relocate delta bufs r = .ok bufs' ∧ bufs'.map List.length = lens ∧
      ∀ i w, w % 4 = 0 → w + 4 ≤ lens.getD i 0 →
        le32 (bufs'.getD i []) w = le32 (bufs.getD i []) w +
          if r.seg.toNat = i ∧ r.off.toNat = w then delta.getD r.ref.toNat 0 else 0 := by
  have hseg : r.seg.toNat < bufs.length := by
    rw [← length_map (f := List.length), hlens]
    exact h.seg
  have hlen := length_getD hlens r.seg.toNat
  refine ⟨_, h.relocate_ok hlens hw, map_length_set hlens _ _ _, ?_⟩
  intro i w hmod hwle
  rw [getD_eq_getElem?_getD, getElem?_set]
  by_cases hi : r.seg.toNat = i
  · subst hi
    rw [if_pos rfl, if_pos hseg, Option.getD_some]
    by_cases hoff : r.off.toNat = w
    · subst hoff
      rw [if_pos ⟨rfl, rfl⟩, le32_put32_same _ _ _ (by omega)]
    · have halign := h.align
      rw [if_neg fun h' => hoff h'.2, le32_put32_apart _ _ (by omega) (by omega)]
      exact (BitVec.add_zero _).symm
  · rw [if_neg hi, if_neg fun h' => hi h'.1]
    exact (BitVec.add_zero _).symm

end RelocFits

section

variable {lens : List Nat} {delta : List Word} {rs : List Reloc} {bufs : List (List Byte)} (hfit : ∀ r ∈ rs, RelocFits lens delta.length r) (hlens : bufs.map List.length = lens)
include hfit hlens

theorem relocateAll_of_wraps (hw : ∃ r ∈ rs, r.Wraps) :
    relocateAll delta rs bufs = .error .panic := by
  induction rs generalizing bufs with
  | nil => exact absurd hw (by simp)
  | cons r rs ih =>
    obtain ⟨hr, hrs⟩ := forall_mem_cons.mp hfit
    by_cases hwr : r.Wraps
    · rw [relocateAll, hr.panic hlens hwr]
      rfl
    · obtain ⟨bufs', hstep, hlens', _⟩ := hr.ok hlens hwr
      rw [relocateAll, hstep]
      obtain ⟨r', hr', hw'⟩ := hw
      refine ih hrs hlens' ⟨r', ?_, hw'⟩
      exact (mem_cons.mp hr').resolve_left fun h => hwr (h ▸ hw')

theorem relocateAll_ok (hw : ∀ r ∈ rs, ¬r.Wraps) :
    ∃ bufs', relocateAll delta rs bufs = .ok bufs' ∧ bufs'.map List.length = lens ∧
      ∀ i w, w % 4 = 0 → w + 4 ≤ lens.getD i 0 →
        le32 (bufs'.getD i []) w = le32 (bufs.getD i []) w + rebase delta rs i w := by
  induction rs generalizing bufs with
  | nil => exact ⟨bufs, rfl, hlens, fun i w _ _ => (BitVec.add_zero _).symm⟩
  | cons r rs ih =>
    obtain ⟨hr, hrs⟩ := forall_mem_cons.mp hfit
    obtain ⟨hwr, hwrs⟩ := forall_mem_cons.mp hw
    obtain ⟨bufs₁, hstep, hlens₁, hword₁⟩ := hr.ok hlens hwr
    obtain ⟨bufs₂, hrest, hlens₂, hword₂⟩ := ih hrs hlens₁ hwrs
    refine ⟨bufs₂, by rw [relocateAll, hstep]; exact hrest, hlens₂, fun i w hmod hle => ?_⟩
    rw [hword₂ i w hmod hle, hword₁ i w hmod hle, rebase, rebase, map_cons, sum_cons,
      BitVec.add_assoc]

end

/-! ## Loading -/

/-- A load address and a length. -/
abbrev Span := Word × Word

/-- The range of a span, as `LoadBytes` computes it. -/
def Span.range (sp : Span) : Word × Word := (sp.1, sp.1 + sp.2)

/-- Where the slice of the flash would start behind its end. -/
def startsPastFlash (mem : Mem) (sp : Span) : Prop :=
  spanInFlash mem sp.1 sp.2 ∧ mem.flash.size < sp.1.toNat - xipBase

/-- `LoadBytes` takes the span, with these ranges loaded before. -/
def Takes (mem : Mem) (loaded : List (Word × Word)) (sp : Span) : Prop :=
  (spanInSRAM mem sp.1 sp.2 ∨ spanInFlash mem sp.1 sp.2) ∧
    (∀ r ∈ loaded, ¬clash sp.range r) ∧ ¬startsPastFlash mem sp

/-- `LoadBytes` panics on the span. -/
def Panics (mem : Mem) (loaded : List (Word × Word)) (sp : Span) : Prop :=
  (∀ r ∈ loaded, ¬clash sp.range r) ∧ startsPastFlash mem sp

/-- All spans are taken, one after the other. -/
def TakesAll (mem : Mem) : List (Word × Word) → List Span → Prop
  | _, [] => True
  | loaded, sp :: sps => Takes mem loaded sp ∧ TakesAll mem (loaded ++ [sp.range]) sps

/-- Some span is come to, and `LoadBytes` panics on it. -/
def PanicsSome (mem : Mem) : List (Word × Word) → List Span → Prop
  | _, [] => False
  | loaded, sp :: sps =>
    Panics mem loaded sp ∨ Takes mem loaded sp ∧ PanicsSome mem (loaded ++ [sp.range]) sps

/-- The span of a buffer at an address. -/
def spanOf (item : Word × List Byte) : Span := (item.1, BitVec.ofNat 32 item.2.length)

/-- The memory after the span has been taken. -/
def taken (mem : Mem) (addr : Word) (data : List Byte) : Mem :=
  if spanInFlash mem addr (BitVec.ofNat 32 data.length) then
    blitFlash mem (addr.toNat - xipBase) data
  else blitSram mem (addr.toNat - sramBase) data

variable {sp : Span} {sps : List Span}

section Loading

variable {δ : Type} (h : Host δ) (addr : Word) (data : List Byte)

theorem find_clash {loaded : List (Word × Word)} :
    (loaded.find? fun r => clash sp.range r) = none ↔ ∀ r ∈ loaded, ¬clash sp.range r := by
  rw [find?_eq_none]
  simp

theorem loadBytes_of_takes (ht : Takes h.m.mem h.loaded (spanOf (addr, data))) :
    loadBytes h addr data = .ok ⟨{ h.m with mem := taken h.m.mem addr data },
      h.loaded ++ [(spanOf (addr, data)).range]⟩ := by
  obtain ⟨hin, hclear, hstart⟩ := ht
  unfold loadBytes
  rw [if_neg (by rw [not_and_or, not_not, not_not]; exact hin)]
  have hfind : (h.loaded.find? fun r => clash (addr, addr + BitVec.ofNat 32 data.length) r) = none :=
    find_clash.mpr hclear
  simp only [hfind]
  unfold taken
  by_cases hf : spanInFlash h.m.mem addr (BitVec.ofNat 32 data.length)
  · rw [if_pos hf, if_pos hf]
    exact if_neg fun hlt => hstart ⟨hf, hlt⟩
  · rw [if_neg hf, if_neg hf]
    rfl

theorem loadBytes_of_panics (hp : Panics h.m.mem h.loaded (spanOf (addr, data))) :
    loadBytes h addr data = .error .panic := by
  obtain ⟨hclear, hf, hlt⟩ := hp
  unfold loadBytes
  rw [if_neg (by rw [not_and_or, not_not, not_not]; exact .inr hf)]
  have hfind : (h.loaded.find? fun r => clash (addr, addr + BitVec.ofNat 32 data.length) r) = none :=
    find_clash.mpr hclear
  simp only [hfind]
  exact (if_pos hf).trans (if_pos hlt)

theorem loadBytes_of_neither (ht : ¬Takes h.m.mem h.loaded (spanOf (addr, data)))
    (hp : ¬Panics h.m.mem h.loaded (spanOf (addr, data))) :
    ∃ e, loadBytes h addr data = .error (.error e) := by
  unfold loadBytes
  by_cases hin : spanInSRAM h.m.mem addr (BitVec.ofNat 32 data.length) ∨
      spanInFlash h.m.mem addr (BitVec.ofNat 32 data.length)
  · rw [if_neg (by rw [not_and_or, not_not, not_not]; exact hin)]
    have hclash : ¬∀ r ∈ h.loaded, ¬clash (spanOf (addr, data)).range r := by
      intro hclear
      by_cases hs : startsPastFlash h.m.mem (spanOf (addr, data))
      · exact hp ⟨hclear, hs⟩
      · exact ht ⟨hin, hclear, hs⟩
    rw [← find_clash] at hclash
    obtain ⟨r, hr⟩ := Option.ne_none_iff_exists'.mp hclash
    have hfind : (h.loaded.find? fun r => clash (addr, addr + BitVec.ofNat 32 data.length) r) =
      some r := hr
    simp only [hfind]
    exact ⟨_, rfl⟩
  · rw [if_pos (not_or.mp hin)]
    exact ⟨_, rfl⟩

/-- Two memories of the same sizes. -/
def SameSizes (mem mem' : Mem) : Prop :=
  mem'.sram.size = mem.sram.size ∧ mem'.flash.size = mem.flash.size

theorem sameSizes_blitFlash (mem : Mem) (off : Nat) (data : List Byte) :
    SameSizes mem (blitFlash mem off data) := ⟨rfl, rfl⟩

theorem sameSizes_blitSram (mem : Mem) (off : Nat) (data : List Byte) :
    SameSizes mem (blitSram mem off data) := ⟨rfl, rfl⟩

theorem sameSizes_taken (mem : Mem) : SameSizes mem (taken mem addr data) := by
  unfold taken
  split
  · exact sameSizes_blitFlash _ _ _
  · exact sameSizes_blitSram _ _ _

variable {mem mem' : Mem} {loaded : List (Word × Word)}

section

variable (hs : SameSizes mem mem')
include hs

theorem takes_congr : Takes mem' loaded sp ↔ Takes mem loaded sp := by
  unfold Takes startsPastFlash spanInSRAM spanInFlash
  rw [hs.1, hs.2]

theorem panics_congr : Panics mem' loaded sp ↔ Panics mem loaded sp := by
  unfold Panics startsPastFlash spanInFlash
  rw [hs.2]

theorem takesAll_congr :
    TakesAll mem' loaded sps ↔ TakesAll mem loaded sps := by
  induction sps generalizing loaded with
  | nil => exact Iff.rfl
  | cons sp sps ih => exact and_congr (takes_congr hs) ih

theorem panicsSome_congr :
    PanicsSome mem' loaded sps ↔ PanicsSome mem loaded sps := by
  induction sps generalizing loaded with
  | nil => exact Iff.rfl
  | cons sp sps ih => exact or_congr (panics_congr hs) (and_congr (takes_congr hs) ih)

end

theorem not_takes_of_panics (hp : Panics mem loaded sp) : ¬Takes mem loaded sp :=
  fun ht => ht.2.2 hp.2

variable {items : List (Word × List Byte)}

/-- `LoadBytes` on every buffer in turn: it panics, or takes all of them, or refuses one. -/
theorem loadAll_eq_panic {h : Host δ} :
    loadAll items h = .error .panic ↔ PanicsSome h.m.mem h.loaded (items.map spanOf) := by
  induction items generalizing h with
  | nil => exact ⟨(nomatch ·), False.elim⟩
  | cons item items ih =>
    obtain ⟨addr, data⟩ := item
    rw [loadAll, Fallible.bind_eq_error, map_cons, PanicsSome]
    by_cases ht : Takes h.m.mem h.loaded (spanOf (addr, data))
    · rw [loadBytes_of_takes h addr data ht]
      have hpanics : ¬Panics h.m.mem h.loaded (spanOf (addr, data)) :=
        fun hp => not_takes_of_panics hp ht
      simp only [hpanics, ht, false_or, true_and, reduceCtorEq, Except.ok.injEq, exists_eq_left', ih]
      exact panicsSome_congr (sameSizes_taken addr data h.m.mem)
    · by_cases hp : Panics h.m.mem h.loaded (spanOf (addr, data))
      · simp [loadBytes_of_panics h addr data hp, hp]
      · obtain ⟨e, he⟩ := loadBytes_of_neither h addr data ht hp
        simp [he, hp, ht]

theorem takesAll_of_loadAll {h h' : Host δ}
    (hload : loadAll items h = .ok h') : TakesAll h.m.mem h.loaded (items.map spanOf) := by
  induction items generalizing h with
  | nil => trivial
  | cons item items ih =>
    obtain ⟨addr, data⟩ := item
    obtain ⟨h₁, hstep, hrest⟩ := Fallible.bind_eq_ok.mp hload
    by_cases ht : Takes h.m.mem h.loaded (spanOf (addr, data))
    · rw [loadBytes_of_takes h addr data ht] at hstep
      cases hstep
      exact ⟨ht, (takesAll_congr (sameSizes_taken addr data h.m.mem)).mp (ih hrest)⟩
    · by_cases hp : Panics h.m.mem h.loaded (spanOf (addr, data))
      · rw [loadBytes_of_panics h addr data hp] at hstep
        cases hstep
      · obtain ⟨e, he⟩ := loadBytes_of_neither h addr data ht hp
        rw [he] at hstep
        cases hstep

end Loading

/-! ## The bytes in memory -/

/-- The byte of the SRAM or the flash at an address. -/
def byteAt (mem : Mem) (addr : Word) : Option Byte :=
  if sramBase ≤ addr.toNat ∧ addr.toNat - sramBase < mem.sram.size then
    some (mem.sram.byte (addr.toNat - sramBase))
  else if xipBase ≤ addr.toNat ∧ addr.toNat - xipBase < mem.flash.size then
    some (mem.flash.byte (addr.toNat - xipBase))
  else none

/-- The span goes past the end of the address space. -/
def Overruns (sp : Span) : Prop := 2 ^ 32 ≤ sp.1.toNat + sp.2.toNat

instance (sp : Span) : Decidable (Overruns sp) := inferInstanceAs (Decidable (_ ≤ _))

variable {n : Word}

section Bytes

variable {mem : Mem} {addr : Word} {data : List Byte}

theorem spanInSRAM_iff : spanInSRAM mem addr n ↔
      sramBase ≤ addr.toNat ∧ addr.toNat - sramBase + n.toNat ≤ mem.sram.size := by
  have hsize := mem.sram_le
  apply and_congr_right
  intro hbase
  have hoff : (addr - BitVec.ofNat 32 sramBase).toNat = addr.toNat - sramBase := by
    rw [BitVec.toNat_sub, toNat_ofNat]
    omega
  rw [le_def, toNat_add]
  omega

theorem spanInFlash_iff (h : ¬Overruns (addr, n)) :
    spanInFlash mem addr n ↔ mem.flash.size ≠ 0 ∧ xipBase ≤ addr.toNat ∧
      addr.toNat - xipBase + n.toNat ≤ mem.flash.size := by
  unfold spanInFlash
  simp only [Overruns, Nat.not_le] at h
  rw [toNat_add]
  exact and_congr_right fun _ => and_congr_right fun _ => by omega

theorem byteAt_blitSram (off : Nat) (b : Word) :
    byteAt (blitSram mem off data) b =
      if sramBase ≤ b.toNat ∧ b.toNat - sramBase < mem.sram.size ∧ off ≤ b.toNat - sramBase ∧
          b.toNat - sramBase < off + data.length then
        some (data.getD (b.toNat - sramBase - off) 0)
      else byteAt mem b := by
  unfold byteAt blitSram blit
  split <;> split <;> grind

/-- The flash lies below the SRAM. -/
theorem byteAt_blitFlash (off : Nat) (b : Word) :
    byteAt (blitFlash mem off data) b =
      if b.toNat < sramBase ∧ xipBase ≤ b.toNat ∧ b.toNat - xipBase < mem.flash.size ∧
          off ≤ b.toNat - xipBase ∧ b.toNat - xipBase < off + data.length then
        some (data.getD (b.toNat - xipBase - off) 0)
      else byteAt mem b := by
  have hbelow : xipBase ≤ b.toNat ∧ b.toNat - xipBase < mem.flash.size → b.toNat < sramBase := by
    have hflash := mem.flash_le
    simp only [xipBase, sramBase, psramWinOff] at *
    omega
  unfold byteAt blitFlash blit
  by_cases hs : sramBase ≤ b.toNat ∧ b.toNat - sramBase < mem.sram.size
  · rw [if_pos hs, if_neg fun h => absurd h.1 (Nat.not_lt.mpr hs.1), if_pos hs]
  · split <;> split <;> grind

theorem toNat_length (hlen : data.length < 2 ^ 32) :
    (BitVec.ofNat 32 data.length).toNat = data.length := by
  rw [toNat_ofNat, Nat.mod_eq_of_lt hlen]

/-- The bytes a taken span leaves: its own, and elsewhere what was there. -/
theorem byteAt_taken (hlen : data.length < 2 ^ 32)
    (hin : spanInSRAM mem addr (BitVec.ofNat 32 data.length) ∨
      spanInFlash mem addr (BitVec.ofNat 32 data.length))
    (hover : ¬Overruns (addr, BitVec.ofNat 32 data.length)) (b : Word) :
    byteAt (taken mem addr data) b =
      if addr.toNat ≤ b.toNat ∧ b.toNat < addr.toNat + data.length then
        some (data.getD (b.toNat - addr.toNat) 0)
      else byteAt mem b := by
  have hflash := mem.flash_le
  unfold taken
  by_cases hf : spanInFlash mem addr (BitVec.ofNat 32 data.length)
  · rw [if_pos hf, byteAt_blitFlash]
    obtain ⟨_, hbase, hle⟩ := (spanInFlash_iff hover).mp hf
    rw [toNat_length hlen] at hle
    have hiff : (b.toNat < sramBase ∧ xipBase ≤ b.toNat ∧ b.toNat - xipBase < mem.flash.size ∧
        addr.toNat - xipBase ≤ b.toNat - xipBase ∧
        b.toNat - xipBase < addr.toNat - xipBase + data.length) ↔
        addr.toNat ≤ b.toNat ∧ b.toNat < addr.toNat + data.length := by
      simp only [xipBase, sramBase, psramWinOff] at *
      omega
    rw [show b.toNat - xipBase - (addr.toNat - xipBase) = b.toNat - addr.toNat by omega]
    simp only [hiff]
  · rw [if_neg hf, byteAt_blitSram]
    obtain ⟨hbase, hle⟩ := spanInSRAM_iff.mp (hin.resolve_right hf)
    rw [toNat_length hlen] at hle
    have hiff : (sramBase ≤ b.toNat ∧ b.toNat - sramBase < mem.sram.size ∧
        addr.toNat - sramBase ≤ b.toNat - sramBase ∧
        b.toNat - sramBase < addr.toNat - sramBase + data.length) ↔
        addr.toNat ≤ b.toNat ∧ b.toNat < addr.toNat + data.length := by
      omega
    rw [show b.toNat - sramBase - (addr.toNat - sramBase) = b.toNat - addr.toNat by omega]
    simp only [hiff]

/-- An address within a loaded range is outside a span that does not clash with it. -/
theorem not_mem_of_not_clash {r : Word × Word} {b : Word} (hover : ¬Overruns (addr, n))
    (hclear : ¬clash (addr, addr + n) r) (hlo : r.1.toNat ≤ b.toNat)
    (hhi : b.toNat < r.2.toNat) : ¬(addr.toNat ≤ b.toNat ∧ b.toNat < addr.toNat + n.toNat) := by
  rintro ⟨ha, hb⟩
  apply hclear
  simp only [Overruns, Nat.not_le] at hover
  show addr < r.2 ∧ r.1 < addr + n
  rw [lt_def, lt_def, toNat_add]
  omega

end Bytes

section Result

variable {δ : Type} {items : List (Word × List Byte)} {h h' : Host δ}

theorem toNat_add_index {addr : Word} {data : List Byte} (hlen : data.length < 2 ^ 32)
    (hover : ¬Overruns (spanOf (addr, data))) {k : Nat} (hk : k ≤ data.length) :
    (addr + BitVec.ofNat 32 k).toNat = addr.toNat + k := by
  simp only [Overruns, spanOf, toNat_length hlen, Nat.not_le] at hover
  rw [toNat_add, toNat_ofNat, Nat.mod_eq_of_lt (by omega : k < 2 ^ 32),
    Nat.mod_eq_of_lt (by omega)]

/-- What is within the ranges loaded before stays, and every buffer is in memory after the
    load. -/
theorem byteAt_loadAll (hload : loadAll items h = .ok h')
    (hlen : ∀ it ∈ items, it.2.length < 2 ^ 32) (hover : ∀ it ∈ items, ¬Overruns (spanOf it)) :
    (∀ r ∈ h.loaded, ∀ b : Word, r.1.toNat ≤ b.toNat → b.toNat < r.2.toNat →
      byteAt h'.m.mem b = byteAt h.m.mem b) ∧
    ∀ it ∈ items, ∀ k < it.2.length,
      byteAt h'.m.mem (it.1 + BitVec.ofNat 32 k) = some (it.2.getD k 0) := by
  induction items generalizing h with
  | nil =>
    cases hload
    exact ⟨fun _ _ _ _ _ => rfl, nofun⟩
  | cons item items ih =>
    obtain ⟨addr, data⟩ := item
    obtain ⟨hlen₀, hlen⟩ := forall_mem_cons.mp hlen
    obtain ⟨hover₀, hover⟩ := forall_mem_cons.mp hover
    have ht := (takesAll_of_loadAll hload).1
    rw [loadAll, loadBytes_of_takes h addr data ht] at hload
    obtain ⟨hloaded, hitems⟩ := ih hload hlen hover
    have hin : spanInSRAM h.m.mem addr (BitVec.ofNat 32 data.length) ∨ _ := ht.1
    have htaken := byteAt_taken hlen₀ hin hover₀
    refine ⟨fun r hr b hlo hhi => ?_, forall_mem_cons.mpr ⟨fun k (hk : k < data.length) => ?_, hitems⟩⟩
    · rw [hloaded r (mem_append_left _ hr) b hlo hhi]
      refine (htaken b).trans (if_neg ?_)
      have := not_mem_of_not_clash hover₀ (ht.2.1 r hr) hlo hhi
      rwa [toNat_length hlen₀] at this
    · have hb := toNat_add_index hlen₀ hover₀ (Nat.le_of_lt hk)
      have hend : (addr + BitVec.ofNat 32 data.length).toNat = _ :=
        toNat_add_index hlen₀ hover₀ (Nat.le_refl _)
      rw [hloaded _ (mem_append_right _ (mem_singleton_self _)) (addr + BitVec.ofNat 32 k)
        (hb ▸ Nat.le_add_right _ _) (hend ▸ hb ▸ Nat.add_lt_add_left hk _)]
      refine (htaken _).trans ?_
      rw [hb, if_pos (show addr.toNat ≤ _ ∧ _ < addr.toNat + data.length by omega),
        Nat.add_sub_cancel_left]

variable {loaded : List (Word × Word)} {mem : Mem}

theorem not_clash_of_takesAll
    (ht : TakesAll mem loaded sps) : ∀ sp ∈ sps, ∀ r ∈ loaded, ¬clash sp.range r := by
  induction sps generalizing loaded with
  | nil => exact fun sp hsp => by cases hsp
  | cons sp sps ih =>
    rw [forall_mem_cons]
    exact ⟨ht.1.2.1, fun sp' hsp' r hr => ih ht.2 sp' hsp' r (mem_append_left _ hr)⟩

/-- The ranges of spans that are all taken do not clash. -/
theorem pairwise_of_takesAll
    (ht : TakesAll mem loaded sps) : sps.Pairwise fun a b => ¬clash b.range a.range := by
  induction sps generalizing loaded with
  | nil => exact List.Pairwise.nil
  | cons sp sps ih =>
    apply pairwise_cons.mpr
    exact ⟨fun sp' hsp' => not_clash_of_takesAll ht.2 sp' hsp' _
      (mem_append_right _ mem_cons_self), ih ht.2⟩

theorem not_spanInFlash_of_sram {addr : Word} (h : spanInSRAM mem addr n) :
    ¬spanInFlash mem addr n := by
  obtain ⟨hbase, hin⟩ := spanInSRAM_iff.mp h
  have hsram := mem.sram_le
  have hflash := mem.flash_le
  have hsum : (addr + n).toNat = addr.toNat + n.toNat := by
    rw [toNat_add]
    simp only [sramBase] at hbase hin
    omega
  rintro ⟨_, _, hle⟩
  simp only [sramBase, xipBase, psramWinOff] at *
  omega

/-- Spans of SRAM that clash neither with each other nor with what is loaded are taken. -/
theorem takesAll_of_sram (hsram : ∀ sp ∈ sps, spanInSRAM mem sp.1 sp.2)
    (hloaded : ∀ sp ∈ sps, ∀ r ∈ loaded, ¬clash sp.range r)
    (hpair : sps.Pairwise fun a b => ¬clash b.range a.range) : TakesAll mem loaded sps := by
  induction sps generalizing loaded with
  | nil => trivial
  | cons sp sps ih =>
    obtain ⟨hsp, hsps⟩ := forall_mem_cons.mp hsram
    obtain ⟨hclear, hrest⟩ := forall_mem_cons.mp hloaded
    obtain ⟨hhead, htail⟩ := pairwise_cons.mp hpair
    refine ⟨⟨.inl hsp, hclear, fun hpast => not_spanInFlash_of_sram hsp hpast.1⟩, ih hsps ?_ htail⟩
    intro sp' hsp' r hr
    rcases mem_append.mp hr with hr | hr
    · exact hrest sp' hsp' r hr
    · rw [mem_singleton.mp hr]
      exact hhead sp' hsp'

end Result

end DmaCpu.Dmx
