-- SUMMARY: The kernel's loader leaves in memory what the host's loader leaves for the same image.
import DmaCpu.Dmx.LoadSound
import DmaCpu.Xv6.ExecFile

/-!
# The two loaders of executables

`DMXExec` packs an image for the kernel, whose loader then does in chunks, on memory,
what `Load` does relocation by relocation on copies of the segments. The two go in
step: the blocks hold the buffers of `Load`.
-/
namespace DmaCpu.Xv6.Exec

open List Nat

open Dmx (slice le32 leBytes put32)

/-! ## Reads -/

section

variable {file : List Byte} {off n : Word} {raw : List Byte} {pos len k : Nat}

/-- A read within the file delivers all of it. -/
theorem readi_eq_slice (hfile : file.length < 2 ^ 32) (h : off.toNat + n.toNat ≤ file.length) :
    readi file off n = slice file off.toNat n.toNat := by
  have hsize : (BitVec.ofNat 32 file.length).toNat = file.length := by
    rw [BitVec.toNat_ofNat, mod_eq_of_lt hfile]
  have hend : (off + n).toNat = off.toNat + n.toNat := by
    rw [BitVec.toNat_add, mod_eq_of_lt (by omega)]
  simp only [readi, BitVec.lt_def, hsize, hend]
  rw [if_neg (by omega), if_neg (by omega)]

theorem getD_slice (hk : k < len) :
    (slice raw pos len).getD k 0 = raw.getD (pos + k) 0 := by
  rw [slice, getD_eq_getElem?_getD, getElem?_take_of_lt hk, getElem?_drop,
    getD_eq_getElem?_getD]

theorem le32_slice (hk : k + 4 ≤ len) :
    le32 (slice raw pos len) k = le32 raw (pos + k) := by
  unfold le32
  rw [getD_slice (by omega), getD_slice (by omega), getD_slice (by omega), getD_slice (by omega)]
  rfl

end

/-! ## The relocation loop -/

/-- `n` words of a file from a position on. -/
def wordsAt (file : List Byte) (pos n : Nat) : List Word :=
  (List.range n).map fun i => le32 file (pos + 4 * i)

theorem wordsAt_add (file : List Byte) (pos n k : Nat) :
    wordsAt file pos (n + k) = wordsAt file pos n ++ wordsAt file (pos + 4 * n) k := by
  rw [wordsAt, range_add, map_append, map_map]
  congr 1
  apply map_congr_left
  intro i _
  simp only [Function.comp_apply]
  congr 1
  omega

theorem words_slice (file : List Byte) (pos n : Nat) :
    words (slice file pos (4 * n)) n = wordsAt file pos n := by
  apply map_congr_left
  intro i hi
  have := mem_range.mp hi
  exact le32_slice (by omega)

section

variable {file : List Byte} {im : Kimg} {tb db : Word}

/-- The chunks are the table: nothing is left out or done twice. -/
theorem relocLoop_eq (hfile : file.length < 2 ^ 32) {fuel : Nat} {left off : Word} {m : Memory}
    (hfuel : left.toNat ≤ fuel) (h : off.toNat + 4 * left.toNat ≤ file.length) :
    relocLoop im tb db file fuel left off m =
      (wordsAt file off.toNat left.toNat).foldlM (patch im tb db) m := by
  induction fuel generalizing left off m with
  | zero =>
    rw [le_zero.mp hfuel]
    rfl
  | succ fuel ih =>
    rw [relocLoop]
    by_cases hz : left = 0
    · rw [hz]
      rfl
    have hpos : 0 < left.toNat := Nat.pos_of_ne_zero fun h0 => hz (BitVec.eq_of_toNat_eq h0)
    rw [if_neg hz]
    simp only []
    generalize htake : (if 64 < left then 64 else left : Word) = take
    have hle : take.toNat ≤ left.toNat ∧ 0 < take.toNat := by
      rw [← htake]
      split
      next hlt => exact ⟨le_of_lt (BitVec.lt_def.mp hlt), by decide⟩
      next => exact ⟨le_refl _, hpos⟩
    have hbytes : (take * 4).toNat = 4 * take.toNat := by
      show take.toNat * 4 % 2 ^ 32 = _
      rw [mod_eq_of_lt (by omega), mul_comm]
    have hread : readi file off (take * 4) = slice file off.toNat (4 * take.toNat) := by
      rw [readi_eq_slice hfile (by omega), hbytes]
    have hleft : (left - take).toNat = left.toNat - take.toNat := BitVec.toNat_sub_of_le hle.1
    have hoff : (off + take * 4).toNat = off.toNat + 4 * take.toNat := by
      rw [BitVec.toNat_add, hbytes, mod_eq_of_lt (by omega)]
    rw [hread, Dmx.length_slice (by omega), if_neg (not_not.mpr hbytes.symm), words_slice]
    have hsplit : wordsAt file off.toNat left.toNat =
        wordsAt file off.toNat take.toNat ++
          wordsAt file (off.toNat + 4 * take.toNat) (left.toNat - take.toNat) := by
      rw [← wordsAt_add, Nat.add_sub_cancel' hle.1]
    rw [hsplit, foldlM_append]
    congr 1
    funext m
    rw [ih (by omega) (by omega), hleft, hoff]

end

/-! ## Blocks of memory -/

/-- The block at `a` holds these bytes. -/
def Holds (m : Memory) (a : Word) (bs : List Byte) : Prop :=
  ∀ k < bs.length, m (a + BitVec.ofNat 32 k) = bs.getD k 0

/-- The block lies within the address space, and so does its end. -/
def Fits (a : Word) (n : Nat) : Prop := a.toNat + n < 2 ^ 32

/-- The blocks have no byte in common. -/
def Apart (a : Word) (n : Nat) (b : Word) (k : Nat) : Prop :=
  a.toNat + n ≤ b.toNat ∨ b.toNat + k ≤ a.toNat

theorem Apart.symm {a b : Word} {n k : Nat} (h : Apart a n b k) : Apart b k a n := Or.symm h

section

variable {m m' : Memory} {a b v : Word} {bs cs : List Byte} {n k off : Nat}

theorem toNat_add_of_fits (hfit : Fits a n) (hk : k < n) :
    (a + BitVec.ofNat 32 k).toNat = a.toNat + k := by
  unfold Fits at hfit
  rw [BitVec.toNat_add, BitVec.toNat_ofNat, mod_eq_of_lt (by omega : k < 2 ^ 32),
    mod_eq_of_lt (by omega)]

theorem Holds.put (m : Memory) (hfit : Fits a bs.length) : Holds (m.put a bs) a bs := by
  intro k hk
  unfold Fits at hfit
  have hblit : Blit.blit m (a + BitVec.ofNat 32 0) bs.length (fun i => bs.getD i 0)
      (a + BitVec.ofNat 32 k) = _ := Blit.blit_add (by omega) (by omega)
  rw [BitVec.add_zero, if_pos (by omega)] at hblit
  exact hblit

/-- A transfer to another block leaves this one alone. -/
theorem Holds.blit_apart (h : Holds m a bs) (hfit : Fits a bs.length) (hb : Fits b n)
    (hab : Apart a bs.length b n) (src : Nat → Byte) : Holds (Blit.blit m b n src) a bs := by
  intro k hk
  have hat := toNat_add_of_fits hfit hk
  rw [Blit.blit_apart (le_of_lt hb) (by unfold Apart at hab; omega)]
  exact h k hk

theorem Holds.ld_eq (h : Holds m a bs) (hoff : off + 4 ≤ bs.length) :
    m.ld (a + BitVec.ofNat 32 off) = le32 bs off := by
  have hbyte (i : Nat) (hi : i < 4) :
      m (a + BitVec.ofNat 32 off + BitVec.ofNat 32 i) = bs.getD (off + i) 0 := by
    rw [BitVec.add_assoc, ← BitVec.ofNat_add]
    exact h _ (by omega)
  have hzero := hbyte 0 (by omega)
  rw [BitVec.add_zero] at hzero
  unfold Memory.ld le32
  rw [← hbyte 3 (by omega), ← hbyte 2 (by omega), ← hbyte 1 (by omega)]
  exact congrArg _ hzero

/-- A word stored in the block. -/
theorem Holds.st (h : Holds m a bs) (hfit : Fits a bs.length) (hoff : off + 4 ≤ bs.length)
    (hst : m.st (a + BitVec.ofNat 32 off) v = some m') : Holds m' a (put32 bs off v) := by
  unfold Memory.st at hst
  split at hst
  · cases hst
    intro k hk
    rw [Dmx.length_put32] at hk
    unfold Fits at hfit
    rw [Dmx.getD_put32 _ _ _ hk, Blit.blit_add (by omega) (by omega), h k hk]
  · cases hst

theorem Holds.st_apart (h : Holds m a bs) (hfit : Fits a bs.length) (hb : Fits b 4)
    (hab : Apart a bs.length b 4) (hst : m.st b v = some m') : Holds m' a bs := by
  unfold Memory.st at hst
  split at hst
  · cases hst
    exact h.blit_apart hfit hb hab _
  · cases hst

end

/-! ## Relocation words -/

section

variable {r : Dmx.Reloc}

/-- A mask picks its part of a packed relocation. -/
theorem pack_and (mask : Word) :
    r.pack &&& mask = (r.off &&& (0x3FFFFFFF &&& mask)) |||
      (if r.seg = 1 then 0x80000000 &&& mask else 0) |||
      (if r.ref = 1 then 0x40000000 &&& mask else 0) := by
  have hite (c : Prop) [Decidable c] (x : Word) :
      (if c then x else 0) &&& mask = if c then x &&& mask else 0 := by
    split
    · rfl
    · exact BitVec.zero_and
  rw [Dmx.Reloc.pack, BitVec.and_or_distrib_right, BitVec.and_or_distrib_right, hite, hite,
    BitVec.and_assoc]

theorem and_offset {x : Word} (h : x.toNat < 2 ^ 30) : x &&& 0x3FFFFFFF = x := by
  apply BitVec.eq_of_toNat_eq
  show x.toNat &&& (2 ^ 30 - 1) = x.toNat
  rw [and_two_pow_sub_one_eq_mod, mod_eq_of_lt h]

/-- The kernel reads the offset back that the host has packed, below `2 ^ 30`. -/
theorem pack_offset (h : r.off.toNat < 2 ^ 30) : r.pack &&& 0x3FFFFFFF = r.off := by
  have hzero (c : Prop) [Decidable c] : (if c then (0 : Word) else 0) = 0 := ite_self _
  rw [pack_and]
  show (r.off &&& 0x3FFFFFFF) ||| (if r.seg = 1 then (0 : Word) else 0) |||
    (if r.ref = 1 then (0 : Word) else 0) = _
  rw [hzero, hzero, and_offset h]
  exact (BitVec.or_zero).trans BitVec.or_zero

theorem target_pack (h : r.off.toNat < 2 ^ 30) (tb db : Word) :
    target tb db r.pack = (if r.seg = 1 then db else tb) + r.off := by
  rw [target, pack_offset h, pack_and]
  show (if (r.off &&& 0) ||| (if r.seg = 1 then (0x80000000 : Word) else 0) |||
    (if r.ref = 1 then (0 : Word) else 0) ≠ 0 then db else tb) + r.off = _
  by_cases hs : r.seg = 1 <;> simp [hs]

theorem delta_pack (im : Kimg) (tb db : Word) :
    delta im tb db r.pack = if r.ref = 1 then db - im.datalink else tb - im.textlink := by
  rw [delta, pack_and]
  show (if (r.off &&& 0) ||| (if r.seg = 1 then (0 : Word) else 0) |||
    (if r.ref = 1 then (0x40000000 : Word) else 0) ≠ 0 then _ else _) = _
  by_cases hs : r.ref = 1 <;> simp [hs]

end

/-! ## The two loaders in step -/

/-- Blocks for a text of `t` and a data segment of `d` bytes. -/
structure Granted (tb db : Word) (t d : Nat) : Prop where
  alignText : tb % 4 = 0
  alignData : db % 4 = 0
  fitText : Fits tb t
  fitData : Fits db d
  apart : Apart tb t db d

/-- The memory holds both buffers. -/
structure HoldsBoth (m : Memory) (tb db : Word) (b₀ b₁ : List Byte) : Prop where
  text : Holds m tb b₀
  data : Holds m db b₁

theorem mod_four_add {a b : Word} (ha : a % 4 = 0) (hb : b % 4 = 0) : (a + b) % 4 = 0 := by
  have ha' : a.toNat % 4 = 0 := congrArg BitVec.toNat ha
  have hb' : b.toNat % 4 = 0 := congrArg BitVec.toNat hb
  apply BitVec.eq_of_toNat_eq
  show (a + b).toNat % 4 = 0
  rw [BitVec.toNat_add]
  omega

theorem st_aligned {m : Memory} {a v : Word} (h : a % 4 = 0) : ∃ m', m.st a v = some m' :=
  ⟨_, if_pos h⟩

variable {bufs : List (List Byte)}

section

variable {m : Memory} {tb db : Word} {b₀ b₁ : List Byte} {r : Dmx.Reloc} {im : Kimg}

section

variable {off : Word} (h : HoldsBoth m tb db b₀ b₁) (hg : Granted tb db b₀.length b₁.length) (halign : off % 4 = 0)
include h hg halign

/-- A word stored in the text. -/
theorem HoldsBoth.st_text (hle : off.toNat + 4 ≤ b₀.length) (v : Word) :
    ∃ m', m.st (tb + off) v = some m' ∧ HoldsBoth m' tb db (put32 b₀ off.toNat v) b₁ := by
  have hoff : off = BitVec.ofNat 32 off.toNat := by
    rw [BitVec.ofNat_toNat, BitVec.setWidth_eq]
  obtain ⟨m', hst⟩ := st_aligned (m := m) (v := v) (mod_four_add hg.alignText halign)
  refine ⟨m', hst, ?_, ?_⟩
  · rw [hoff] at hst
    exact h.text.st hg.fitText hle hst
  · have hfit := hg.fitText
    have hapart := hg.apart
    have hat := toNat_add_of_fits hg.fitText (by omega : off.toNat < b₀.length)
    rw [← hoff] at hat
    refine h.data.st_apart hg.fitData ?_ ?_ hst
    · unfold Fits at *
      omega
    · unfold Apart at *
      omega

/-- A word stored in the data segment. -/
theorem HoldsBoth.st_data (hle : off.toNat + 4 ≤ b₁.length) (v : Word) :
    ∃ m', m.st (db + off) v = some m' ∧ HoldsBoth m' tb db b₀ (put32 b₁ off.toNat v) := by
  have hswap : Granted db tb b₁.length b₀.length :=
    ⟨hg.alignData, hg.alignText, hg.fitData, hg.fitText, hg.apart.symm⟩
  obtain ⟨m', hst, hboth⟩ := HoldsBoth.st_text ⟨h.data, h.text⟩ hswap halign hle v
  exact ⟨m', hst, hboth.data, hboth.text⟩

end

theorem Holds.ld_word {a off : Word} {bs : List Byte} (h : Holds m a bs)
    (hle : off.toNat + 4 ≤ bs.length) : m.ld (a + off) = le32 bs off.toNat := by
  have hld := h.ld_eq hle
  rwa [BitVec.ofNat_toNat] at hld

/-- An index into two things is 0 or 1. -/
theorem getElem?_pair {α : Type} {x y z : α} {i : Word} (h : [x, y][i.toNat]? = some z) :
    i = 0 ∧ z = x ∨ i = 1 ∧ z = y := by
  match hi : i.toNat with
  | 0 =>
    rw [hi] at h
    exact .inl ⟨BitVec.eq_of_toNat_eq hi, (Option.some.inj h).symm⟩
  | 1 =>
    rw [hi] at h
    exact .inr ⟨BitVec.eq_of_toNat_eq hi, (Option.some.inj h).symm⟩
  | n + 2 =>
    rw [hi] at h
    cases h

section

variable (h : HoldsBoth m tb db b₀ b₁) (hg : Granted tb db b₀.length b₁.length)
include h hg

/-- One relocation, done by both. -/
theorem HoldsBoth.relocate
    (halign : r.off % 4 = 0) (hoff : r.off.toNat < 2 ^ 30)
    (hrel : Dmx.relocate [tb - im.textlink, db - im.datalink] [b₀, b₁] r = .ok bufs) :
    ∃ m' c₀ c₁, patch im tb db m r.pack = some m' ∧ bufs = [c₀, c₁] ∧
      c₀.length = b₀.length ∧ c₁.length = b₁.length ∧ HoldsBoth m' tb db c₀ c₁ := by
  unfold Dmx.relocate at hrel
  split at hrel
  next b e hb he =>
    split at hrel
    next hin =>
      cases hrel
      have hle : r.off.toNat + 4 ≤ b.length := by
        have hin₁ := BitVec.le_def.mp hin.1
        have hin₂ := hin.2
        change (r.off.toNat + 4) % 2 ^ 32 ≤ _ at hin₂
        omega
      have he' : e = delta im tb db r.pack := by
        rw [delta_pack]
        rcases getElem?_pair he with ⟨hr, rfl⟩ | ⟨hr, rfl⟩ <;> rw [hr] <;> rfl
      rcases getElem?_pair hb with ⟨hs, rfl⟩ | ⟨hs, rfl⟩
      · obtain ⟨m', hst, hboth⟩ := h.st_text hg halign hle (le32 b r.off.toNat + e)
        refine ⟨m', _, b₁, ?_, by rw [hs]; rfl, Dmx.length_put32 _ _ _, rfl, hboth⟩
        rw [← h.text.ld_word hle] at hst
        rw [patch, target_pack hoff, ← he', hs]
        exact hst
      · obtain ⟨m', hst, hboth⟩ := h.st_data hg halign hle (le32 b r.off.toNat + e)
        refine ⟨m', b₀, _, ?_, by rw [hs]; rfl, rfl, Dmx.length_put32 _ _ _, hboth⟩
        rw [← h.data.ld_word hle] at hst
        rw [patch, target_pack hoff, ← he', hs]
        exact hst
    next => cases hrel
  next => cases hrel

/-- All relocations. -/
theorem HoldsBoth.relocateAll
    {rs : List Dmx.Reloc} (halign : ∀ r ∈ rs, r.off % 4 = 0) (hoff : ∀ r ∈ rs, r.off.toNat < 2 ^ 30)
    (hrel : Dmx.relocateAll [tb - im.textlink, db - im.datalink] rs [b₀, b₁] = .ok bufs) :
    ∃ m' c₀ c₁, (rs.map Dmx.Reloc.pack).foldlM (patch im tb db) m = some m' ∧ bufs = [c₀, c₁] ∧
      c₀.length = b₀.length ∧ c₁.length = b₁.length ∧ HoldsBoth m' tb db c₀ c₁ := by
  induction rs generalizing m b₀ b₁ with
  | nil =>
    cases hrel
    exact ⟨m, b₀, b₁, rfl, rfl, rfl, rfl, h⟩
  | cons r rs ih =>
    obtain ⟨hr, hrs⟩ := forall_mem_cons.mp halign
    obtain ⟨hoffr, hoffs⟩ := forall_mem_cons.mp hoff
    obtain ⟨bufs₁, hstep, hrest⟩ := Fallible.bind_eq_ok.mp hrel
    obtain ⟨m₁, c₀, c₁, hpatch, rfl, h₀, h₁, hboth⟩ := h.relocate hg hr hoffr hstep
    obtain ⟨m₂, e₀, e₁, hfold, rfl, h₀', h₁', hboth'⟩ := ih hboth (h₀ ▸ h₁ ▸ hg) hrs hoffs hrest
    refine ⟨m₂, e₀, e₁, ?_, rfl, h₀'.trans h₀, h₁'.trans h₁, hboth'⟩
    rw [map_cons, foldlM_cons, hpatch]
    exact hfold

end

end

/-! ## The file -/

variable {syms : List (String × Word)}

section

variable {ε : Type} {sym : String → Except ε Word} {im : Dmx.Image} {text data : Dmx.Segment}
  {offs : List Word} {file : List Byte}

theorem Kimg.ofHeader_congr {f g : Nat → Word} (h : ∀ i < 13, f i = g i) :
    Kimg.ofHeader f = Kimg.ofHeader g := by
  simp [Kimg.ofHeader, h _ (by decide : 1 < 13), h _ (by decide : 2 < 13), h _ (by decide : 3 < 13),
    h _ (by decide : 4 < 13), h _ (by decide : 5 < 13), h _ (by decide : 6 < 13), h _ (by decide : 7 < 13),
    h _ (by decide : 8 < 13), h _ (by decide : 9 < 13), h _ (by decide : 10 < 13), h _ (by decide : 11 < 13),
    h _ (by decide : 12 < 13)]

/-- The header that `DMXExec` writes, as the kernel reads it. -/
def header (im : Dmx.Image) (text data : Dmx.Segment) (offs : List Word) : Kimg :=
  Kimg.ofHeader fun i => (im.execHeader text data offs).getD i 0

theorem length_offsets {offs : List Word}
    (h : Dmx.offsets sym syms = .ok offs) : offs.length = syms.length := by
  induction syms generalizing offs with
  | nil =>
    cases h
    rfl
  | cons s syms ih =>
    unfold Dmx.offsets at h
    split at h
    · cases h
    · cases hrest : Dmx.offsets sym syms with
      | error e =>
        rw [hrest] at h
        cases h
      | ok rest =>
        rw [hrest] at h
        cases h
        rw [length_cons, length_cons, ih hrest]

/-- The offset of a symbol is its address less the link address of its segment. -/
theorem getD_offsets {offs : List Word} (h : Dmx.offsets sym syms = .ok offs) {i : Nat}
    (hi : i < syms.length) :
    ∃ a, sym (syms.get ⟨i, hi⟩).1 = .ok a ∧ offs.getD i 0 = a - (syms.get ⟨i, hi⟩).2 := by
  induction syms generalizing offs i with
  | nil => cases hi
  | cons s syms ih =>
    unfold Dmx.offsets at h
    split at h
    · cases h
    next a hsym =>
      cases hrest : Dmx.offsets sym syms with
      | error e =>
        rw [hrest] at h
        cases h
      | ok rest =>
        rw [hrest] at h
        cases h
        cases i with
        | zero => exact ⟨a, hsym, rfl⟩
        | succ i => exact ih hrest (lt_of_succ_lt_succ hi)

theorem readHeader_execBytes (hoffs : offs.length = 7)
    (hsize : (im.execBytes text data offs).length < 2 ^ 32) :
    readHeader (im.execBytes text data offs) = some (header im text data offs) := by
  have hlen : (im.execHeader text data offs).length = 13 := by
    rw [Dmx.Image.execHeader, length_append, hoffs]
    rfl
  have hle : 52 ≤ (im.execBytes text data offs).length := by
    simp only [Dmx.Image.execBytes, length_append, Dmx.length_leBytes, hlen]
    omega
  have hword (i : Nat) (hi : i < 13) :
      le32 (slice (im.execBytes text data offs) 0 52) (4 * i) =
        (im.execHeader text data offs).getD i 0 := by
    rw [le32_slice (by omega), zero_add, Dmx.Image.execBytes, append_assoc,
      append_assoc]
    have hread := Dmx.le32_words (im.execHeader text data offs) []
      (Dmx.pad text.data ++ (Dmx.pad data.data ++ leBytes (im.relocs.map Dmx.Reloc.pack)))
      (hlen ▸ hi)
    rwa [length_nil, zero_add, nil_append] at hread
  have hread : readi (im.execBytes text data offs) 0 52 =
      slice (im.execBytes text data offs) 0 52 := by
    rw [readi_eq_slice hsize (by show 0 + 52 ≤ _; omega)]
    rfl
  unfold readHeader
  simp only []
  rw [hread, Dmx.length_slice (by omega), if_neg]
  · exact congrArg some (Kimg.ofHeader_congr hword)
  · rintro (h | h)
    · exact h rfl
    · exact h (hword 0 (by decide))

/-- The parts of the file, for segments of whole words. -/
structure Parts (file : List Byte) (im : Dmx.Image) (text data : Dmx.Segment) : Prop where
  length : file.length = 52 + text.data.length + data.data.length + 4 * im.relocs.length
  readText : slice file 52 text.data.length = text.data
  readData : slice file (52 + text.data.length) data.data.length = data.data
  readRelocs : wordsAt file (52 + text.data.length + data.data.length) im.relocs.length =
    im.relocs.map Dmx.Reloc.pack

theorem parts_execBytes (hoffs : offs.length = 7) (htext : text.data.length % 4 = 0)
    (hdata : data.data.length % 4 = 0) : Parts (im.execBytes text data offs) im text data := by
  have hhdr : (leBytes (im.execHeader text data offs)).length = 52 := by
    rw [Dmx.length_leBytes, Dmx.Image.execHeader, length_append, hoffs]
    rfl
  have hbytes : im.execBytes text data offs = leBytes (im.execHeader text data offs) ++
      text.data ++ data.data ++ leBytes (im.relocs.map Dmx.Reloc.pack) := by
    rw [Dmx.Image.execBytes, Dmx.pad_eq htext, Dmx.pad_eq hdata]
  rw [hbytes]
  refine ⟨?_, ?_, ?_, ?_⟩
  · simp only [length_append, hhdr, Dmx.length_leBytes, length_map]
  · rw [append_assoc _ data.data, ← hhdr]
    exact Dmx.slice_append
  · rw [← hhdr, ← length_append]
    exact Dmx.slice_append
  · apply ext_getElem?
    intro i
    rw [wordsAt, getElem?_map, getElem?_map]
    rcases lt_or_ge i im.relocs.length with hi | hi
    · have hread := Dmx.le32_words (im.relocs.map Dmx.Reloc.pack)
        (leBytes (im.execHeader text data offs) ++ text.data ++ data.data) []
        (by rwa [length_map])
      rw [append_nil, length_append, length_append, hhdr] at hread
      rw [getElem?_range hi, Option.map_some, hread, getD_eq_getElem?_getD,
        getElem?_map, getElem?_eq_getElem hi]
      rfl
    · rw [getElem?_eq_none (by rwa [length_range]), getElem?_eq_none hi]
      rfl

/-- The kernel's loader on a file with these parts: the segments are put in their
    blocks, and the relocations done. -/
theorem loadFile_eq {kim : Kimg} (hp : Parts file im text data) (hsize : file.length < 2 ^ 32)
    (htext : kim.textlen.toNat = text.data.length) (hdata : kim.datalen.toNat = data.data.length)
    (hreloc : kim.nreloc.toNat = im.relocs.length) {tb db : Word} {m m' : Memory}
    (hfold : (im.relocs.map Dmx.Reloc.pack).foldlM (patch kim tb db)
      ((m.put tb text.data).put db data.data) = some m') :
    loadFile file kim tb db m = .done m' := by
  have hlen := hp.length
  have hdoff : ((52 : Word) + kim.textlen).toNat = 52 + text.data.length := by
    rw [BitVec.toNat_add, htext]
    exact mod_eq_of_lt (show 52 + text.data.length < 2 ^ 32 by omega)
  have hroff : ((52 : Word) + kim.textlen + kim.datalen).toNat =
      52 + text.data.length + data.data.length := by
    rw [BitVec.toNat_add, hdoff, hdata, mod_eq_of_lt (by omega)]
  have ht : readi file 52 kim.textlen = text.data := by
    rw [readi_eq_slice hsize (by rw [htext]; show 52 + _ ≤ _; omega), htext]
    exact hp.readText
  have hd : readi file (52 + kim.textlen) kim.datalen = data.data := by
    rw [readi_eq_slice hsize (by omega), hdoff, hdata, hp.readData]
  unfold loadFile
  simp only []
  rw [ht, hd, if_neg (not_not.mpr htext.symm), if_neg (not_not.mpr hdata.symm),
    relocLoop_eq hsize (le_refl _) (by omega), hroff, hreloc, hp.readRelocs, hfold]

theorem dmxExec_eq_ok (hsegs : im.segments = [text, data]) (h : im.dmxExec sym = .ok file) :
    ∃ offs, Dmx.offsets sym (Dmx.execSyms text.linkAddr data.linkAddr) = .ok offs ∧
      file = im.execBytes text data offs := by
  unfold Dmx.Image.dmxExec at h
  rw [hsegs] at h
  simp only [] at h
  cases hoffs : Dmx.offsets sym (Dmx.execSyms text.linkAddr data.linkAddr) with
  | error e =>
    rw [hoffs] at h
    cases h
  | ok offs =>
    rw [hoffs] at h
    cases h
    exact ⟨offs, rfl, rfl⟩

end

/-! ## The kernel's loader and the host's -/

/-- The first segment at `tb`, the second at `db`. -/
def placement (tb db : Word) : Dmx.Placement
  | 0 => some tb
  | 1 => some db
  | _ => none

/-- `x` is the address of a symbol, moved with its segment from `link` to `place`. -/
def Relocated {ε : Type} (sym : String → Except ε Word) (name : String) (link place x : Word) :
    Prop :=
  ∃ a, sym name = .ok a ∧ x = a + (place - link)

/-- The addresses that the kernel uses are those of the symbols. -/
structure Landed {ε : Type} (sym : String → Except ε Word) (text data : Dmx.Segment) (tb db : Word)
    (l : Landmarks) : Prop where
  start : Relocated sym "warmstart" text.linkAddr tb l.start
  thunk : Relocated sym "crtthunk" text.linkAddr tb l.thunk
  pdispatch : Relocated sym "dispatch" data.linkAddr db l.pdispatch
  pirqresume : Relocated sym "irqresume" data.linkAddr db l.pirqresume
  plr : Relocated sym "lr" data.linkAddr db l.plr
  pmail : Relocated sym "g___dma_sysmail" data.linkAddr db l.pmail

section

variable {ε : Type} {sym : String → Except ε Word} {im : Dmx.Image} {text data : Dmx.Segment}
  {offs : List Word} {file : List Byte} {tb db : Word}

theorem landed (hoffs : Dmx.offsets sym (Dmx.execSyms text.linkAddr data.linkAddr) = .ok offs) :
    Landed sym text data tb db (landmarks (header im text data offs) tb db) := by
  have hmove {i : Nat} (hi : i < 7) (place : Word) :
      Relocated sym ((Dmx.execSyms text.linkAddr data.linkAddr).get ⟨i, hi⟩).1
        ((Dmx.execSyms text.linkAddr data.linkAddr).get ⟨i, hi⟩).2 place
        (place + offs.getD i 0) := by
    obtain ⟨a, hsym, hoff⟩ := getD_offsets hoffs hi
    refine ⟨a, hsym, ?_⟩
    rw [hoff, BitVec.sub_eq_add_neg, BitVec.sub_eq_add_neg, ← BitVec.add_assoc, BitVec.add_comm place,
      BitVec.add_assoc]
  exact ⟨hmove (i := 0) (by decide) tb, hmove (i := 1) (by decide) tb,
    hmove (i := 2) (by decide) db, hmove (i := 3) (by decide) db, hmove (i := 4) (by decide) db,
    hmove (i := 5) (by decide) db⟩

/-- An offset that `Load` can relocate is within its segment. -/
theorem offset_lt (hvalid : im.Valid) (hsegs : im.segments = [text, data])
    (htext : text.data.length ≤ Emu.psramWinOff) (hdata : data.data.length ≤ Emu.psramWinOff)
    (hrel : Dmx.relocateAll [tb - text.linkAddr, db - data.linkAddr]
      im.relocs [text.data, data.data] = .ok bufs) : ∀ r ∈ im.relocs, r.off.toNat < 2 ^ 30 := by
  simp only [Emu.psramWinOff] at htext hdata
  have hdec : Dmx.Decoded im := by
    refine ⟨hvalid, ?_, ?_⟩ <;> rw [hsegs]
    · show 2 ≤ 1024
      decide
    · exact forall_mem_cons.mpr ⟨by omega, forall_mem_singleton.mpr (by omega)⟩
  have hlens : (im.segments.map fun s => s.data.length) = [text.data.length, data.data.length] := by
    rw [hsegs]
    rfl
  have hdeltas : im.deltas (placement tb db) = [tb - text.linkAddr, db - data.linkAddr] := by
    rw [Dmx.Image.deltas, hsegs]
    rfl
  have hfits : ∀ r ∈ im.relocs, Dmx.RelocFits [text.data.length, data.data.length] 2 r := by
    intro r hr
    have hfit : Dmx.RelocFits _ (im.deltas (placement tb db)).length r :=
      Dmx.Image.relocFits hdec hr
    rwa [hlens, hdeltas] at hfit
  intro r hr
  have hwraps : ¬r.Wraps := by
    intro hw
    rw [Dmx.relocateAll_of_wraps hfits rfl ⟨r, hr, hw⟩] at hrel
    cases hrel
  have hexact := (hfits r hr).exact hwraps
  have hle := (hfits r hr).le
  have hlen : [text.data.length, data.data.length].getD r.seg.toNat 0 ≤ 0x01000000 := by
    rcases hseg : r.seg.toNat with _ | _ | n
    · exact htext
    · exact hdata
    · exact zero_le _
  omega

/-- Where the relocations of `Load` go through, the kernel's loader ends with the
    buffers of `Load` in its blocks. -/
theorem loadFile_holds {m : Memory} (hoffs : offs.length = 7) (hvalid : im.Valid)
    (hsegs : im.segments = [text, data]) (hsize : (im.execBytes text data offs).length < 2 ^ 32)
    (hg : Granted tb db text.data.length data.data.length)
    (hlt : text.data.length ≤ Emu.psramWinOff) (hld : data.data.length ≤ Emu.psramWinOff)
    (hrel : Dmx.relocateAll [tb - text.linkAddr, db - data.linkAddr] im.relocs
      [text.data, data.data] = .ok bufs) :
    ∃ m' b₀ b₁, loadFile (im.execBytes text data offs) (header im text data offs) tb db m =
        .done m' ∧ bufs = [b₀, b₁] ∧ b₀.length = text.data.length ∧ b₁.length = data.data.length ∧
      HoldsBoth m' tb db b₀ b₁ := by
  have htext := (hvalid.segments text (by rw [hsegs]; exact mem_cons_self)).1
  have hdata := (hvalid.segments data (by
    rw [hsegs]
    exact mem_cons_of_mem _ mem_cons_self)).1
  have hp : Parts (im.execBytes text data offs) im text data := parts_execBytes hoffs htext hdata
  have hlen := hp.length
  have hword {n : Nat} (hn : n ≤ (im.execBytes text data offs).length) :
      (BitVec.ofNat 32 n).toNat = n := by
    rw [BitVec.toNat_ofNat, mod_eq_of_lt (by omega)]
  have htextlen : (header im text data offs).textlen.toNat = text.data.length := by
    show (BitVec.ofNat 32 (Dmx.pad text.data).length).toNat = _
    rw [Dmx.pad_eq htext, hword (by omega)]
  have hdatalen : (header im text data offs).datalen.toNat = data.data.length := by
    show (BitVec.ofNat 32 (Dmx.pad data.data).length).toNat = _
    rw [Dmx.pad_eq hdata, hword (by omega)]
  have hnreloc : (header im text data offs).nreloc.toNat = im.relocs.length := by
    show (BitVec.ofNat 32 im.relocs.length).toNat = _
    rw [hword (by omega)]
  have hboth : HoldsBoth ((m.put tb text.data).put db data.data) tb db text.data data.data :=
    ⟨(Holds.put m hg.fitText).blit_apart hg.fitText hg.fitData hg.apart _, Holds.put _ hg.fitData⟩
  have hrel' : Dmx.relocateAll [tb - (header im text data offs).textlink,
      db - (header im text data offs).datalink] im.relocs [text.data, data.data] = .ok bufs := hrel
  obtain ⟨m', b₀, b₁, hfold, hbufs, h₀, h₁, hboth'⟩ :=
    hboth.relocateAll hg (fun r hr => (hvalid.relocs r hr).2.2.1)
      (offset_lt hvalid hsegs hlt hld hrel) hrel'
  exact ⟨m', b₀, b₁, loadFile_eq hp hsize htextlen hdatalen hnreloc hfold, hbufs, h₀, h₁, hboth'⟩

/-- The bytes of `Load` in the machine's memory are those in its buffers. -/
theorem byteAt_loadSegments {δ : Type} {sort : List Dmx.Extent → List Dmx.Extent}
    {h h' : Dmx.Host δ} {ps : List (Word × Word)} (hsegs : im.segments = [text, data])
    (hg : Granted tb db text.data.length data.data.length)
    (hload : im.loadSegments sort (placement tb db) h = .ok (h', ps)) :
    ∃ bufs, Dmx.relocateAll [tb - text.linkAddr, db - data.linkAddr] im.relocs
        [text.data, data.data] = .ok bufs ∧
      ∀ b₀ b₁, bufs = [b₀, b₁] → b₀.length = text.data.length → b₁.length = data.data.length →
        (∀ k < b₀.length, Dmx.byteAt h'.m.mem (tb + BitVec.ofNat 32 k) = some (b₀.getD k 0)) ∧
        ∀ k < b₁.length, Dmx.byteAt h'.m.mem (db + BitVec.ofNat 32 k) = some (b₁.getD k 0) := by
  obtain ⟨_, bufs, hrel, hall⟩ := Dmx.Image.loadSegments_eq_ok sort _ hload
  have hdeltas : im.deltas (placement tb db) = [tb - text.linkAddr, db - data.linkAddr] := by
    rw [Dmx.Image.deltas, hsegs]
    rfl
  rw [hdeltas, hsegs] at hrel
  refine ⟨bufs, hrel, ?_⟩
  rintro b₀ b₁ rfl h₀ h₁
  have hitems : im.items (placement tb db) [b₀, b₁] = [(tb, b₀), (db, b₁)] := by
    rw [Dmx.Image.items, hsegs]
    rfl
  rw [hitems] at hall
  have hsmall {a : Word} {n : Nat} (hfit : Fits a n) : n < 2 ^ 32 :=
    lt_of_le_of_lt (le_add_left _ _) hfit
  have hover {a : Word} {b : List Byte} (hfit : Fits a b.length) :
      ¬Dmx.Overruns (Dmx.spanOf (a, b)) := by
    simp only [Dmx.Overruns, Dmx.spanOf, Dmx.toNat_length (hsmall hfit)]
    exact not_le.mpr hfit
  have hfit₀ : Fits tb b₀.length := h₀ ▸ hg.fitText
  have hfit₁ : Fits db b₁.length := h₁ ▸ hg.fitData
  have hbytes := (Dmx.byteAt_loadAll hall (by simpa using ⟨hsmall hfit₀, hsmall hfit₁⟩)
    (by simpa using ⟨hover hfit₀, hover hfit₁⟩)).2
  exact ⟨hbytes (tb, b₀) (by simp), hbytes (db, b₁) (by simp)⟩

/-- For every two-segment image that passes validation and every pair of blocks in the
    machine's memories, none of which has more than 16 MiB: the kernel reads the header of the file that `DMXExec` makes of it, finds the symbols
    where they have moved to, and its relocation loop ends with the bytes of `Load` in
    the blocks, as buffers and, where `Load` can place them, in the machine's memory. -/
theorem loadFile_eq_load (hsegs : im.segments = [text, data]) (hvalid : im.validate = .ok ())
    (hfile : im.dmxExec sym = .ok file) (hsize : file.length < 2 ^ 32)
    (hg : Granted tb db text.data.length data.data.length)
    (htext : text.data.length ≤ Emu.psramWinOff) (hdata : data.data.length ≤ Emu.psramWinOff)
    (m : Memory) :
    ∃ kim, readHeader file = some kim ∧ Landed sym text data tb db (landmarks kim tb db) ∧
      (∀ bufs, Dmx.relocateAll [tb - text.linkAddr, db - data.linkAddr] im.relocs
          [text.data, data.data] = .ok bufs →
        ∃ m' b₀ b₁, loadFile file kim tb db m = .done m' ∧ bufs = [b₀, b₁] ∧
          b₀.length = text.data.length ∧ b₁.length = data.data.length ∧ HoldsBoth m' tb db b₀ b₁) ∧
      ∀ (δ : Type) (sort : List Dmx.Extent → List Dmx.Extent) (h h' : Dmx.Host δ)
        (ps : List (Word × Word)),
        im.loadSegments sort (placement tb db) h = .ok (h', ps) →
        ∃ m', loadFile file kim tb db m = .done m' ∧
          (∀ k < text.data.length, Dmx.byteAt h'.m.mem (tb + BitVec.ofNat 32 k) =
            some (m' (tb + BitVec.ofNat 32 k))) ∧
          ∀ k < data.data.length, Dmx.byteAt h'.m.mem (db + BitVec.ofNat 32 k) =
            some (m' (db + BitVec.ofNat 32 k)) := by
  obtain ⟨offs, hoffs, rfl⟩ := dmxExec_eq_ok hsegs hfile
  have hseven : offs.length = 7 := length_offsets hoffs
  have hvalid' : im.Valid := im.validate_eq_ok.mp hvalid
  refine ⟨header im text data offs, readHeader_execBytes hseven hsize, landed hoffs,
    fun bufs => loadFile_holds hseven hvalid' hsegs hsize hg htext hdata, ?_⟩
  intro δ sort h h' ps hload
  obtain ⟨bufs, hrel, hbytes⟩ := byteAt_loadSegments hsegs hg hload
  obtain ⟨m', b₀, b₁, hdone, hbufs, h₀, h₁, hboth⟩ :=
    loadFile_holds (m := m) hseven hvalid' hsegs hsize hg htext hdata hrel
  obtain ⟨hb₀, hb₁⟩ := hbytes b₀ b₁ hbufs h₀ h₁
  refine ⟨m', hdone, fun k hk => ?_, fun k hk => ?_⟩
  · rw [hb₀ k (h₀ ▸ hk), hboth.text k (h₀ ▸ hk)]
  · rw [hb₁ k (h₁ ▸ hk), hboth.data k (h₁ ▸ hk)]

end

/-- A text and a data segment that refer to each other. -/
def crossed : Dmx.Image where
  segments := [⟨0x1000, [4, 0x20, 0, 0, 0, 0, 0, 0]⟩, ⟨0x2000, [0, 0, 0, 0, 0, 0x10, 0, 0]⟩]
  relocs := [⟨0, 0, 1⟩, ⟨1, 4, 0⟩]
  writes := []
  entrySeg := 0
  entryOff := 0

def crossedSym (name : String) : Except Unit Word :=
  .ok (if name = "warmstart" ∨ name = "crtthunk" then 0x1000 else 0x2000)

theorem loadFile_eq_load_crossed :
    ∃ file kim m' h' ps, crossed.dmxExec crossedSym = .ok file ∧ readHeader file = some kim ∧
      loadFile file kim 0x20000100 0x20000400 (fun _ => 0) = .done m' ∧
      crossed.loadSegments Dmx.byStart (placement 0x20000100 0x20000400)
        ⟨Emu.bareMachine [], []⟩ = .ok (h', ps) ∧
      ∀ k < 8, Dmx.byteAt h'.m.mem (0x20000100 + BitVec.ofNat 32 k) =
        some (m' (0x20000100 + BitVec.ofNat 32 k)) := by
  have hgranted : Granted 0x20000100 0x20000400 8 8 :=
    ⟨rfl, rfl, by unfold Fits; decide, by unfold Fits; decide, .inl (by decide)⟩
  have hok : (crossed.loadSegments Dmx.byStart (placement 0x20000100 0x20000400)
      ⟨Emu.bareMachine [], []⟩).isOk = true := by decide +kernel
  cases hload : crossed.loadSegments Dmx.byStart (placement 0x20000100 0x20000400)
      ⟨Emu.bareMachine [], []⟩ with
  | error e =>
    rw [hload] at hok
    cases hok
  | ok r =>
    obtain ⟨h', ps⟩ := r
    have hsegs : crossed.segments = [_, _] := rfl
    have hfile : crossed.dmxExec crossedSym = .ok _ := rfl
    obtain ⟨kim, hhdr, _, _, hsame⟩ := loadFile_eq_load hsegs (by decide) hfile (by decide)
      hgranted (by decide) (by decide) fun _ => 0
    obtain ⟨m', hdone, htext, _⟩ := hsame _ _ _ _ _ hload
    exact ⟨_, kim, m', h', ps, hfile, hhdr, hdone, rfl, htext⟩

end DmaCpu.Xv6.Exec
