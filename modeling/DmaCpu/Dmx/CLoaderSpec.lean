-- SUMMARY: What the C loader accepts, looks at and relocates, read off the image.
import DmaCpu.Dmx.CLoader

/-!
# The C loader, described

The image's fields as functions of the image, and `dmx_load` described over them:
when it succeeds, which accesses it makes up to the point where it stops, and, where
it returns `DMX_OK`, the three folds the state has gone through: the copy of the
segments, the relocations in place, the init writes. Positions in the image are
exact; the offset the loader uses is the position modulo 2^32.
-/
namespace DmaCpu.Dmx

open List

open Logged (Spec Effect Does)
open BitVec (ofNat_toNat setWidth_eq lt_def toNat_ofNat ofNat_add eq_of_toNat_eq ofNat_eq_ofNat
  toNat_add toNat_mul le_def)

/-! ## Fields -/

namespace Source

variable (s : Source)

/-- The word at an exact position. -/
def field (pos : Nat) : Word := s.word (BitVec.ofNat 32 pos)

def nSeg : Nat := (s.field 8).toNat
def nRel : Nat := (s.field 12).toNat
def nWr : Nat := (s.field 16).toNat
def entrySeg : Nat := (s.field 20).toNat
def entryOff : Word := s.field 24

def segPos (i : Nat) : Nat := 28 + 8 * i
def relPos (i : Nat) : Nat := 28 + 8 * s.nSeg + 12 * i
def wrPos (i : Nat) : Nat := 28 + 8 * s.nSeg + 12 * s.nRel + 12 * i

/-- The header and the three tables, in exact arithmetic. -/
def tables : Nat := 28 + 8 * s.nSeg + 12 * s.nRel + 12 * s.nWr

def seg (i : Nat) : Placed :=
  let link := s.field (segPos i)
  ⟨s.place i link, s.place i link - link, s.field (segPos i + 4)⟩

def segs : List Placed := (List.range s.nSeg).map s.seg

/-- The sum of the segment sizes, in exact arithmetic. -/
def sizes : Nat := (s.segs.map fun p => p.size.toNat).sum

def relSeg (i : Nat) : Nat := (s.field (s.relPos i)).toNat
def relOff (i : Nat) : Word := s.field (s.relPos i + 4)
def relRef (i : Nat) : Nat := (s.field (s.relPos i + 8)).toNat

/-- The address of the word that relocation `i` rebases. -/
def relTarget (i : Nat) : Word := (s.seg (s.relSeg i)).place + s.relOff i

def wrAddr (i : Nat) : Word := s.field (s.wrPos i)
def wrRef (i : Nat) : Word := s.field (s.wrPos i + 8)

def wrVal (i : Nat) : Word :=
  if s.wrRef i ≠ refAbs then s.field (s.wrPos i + 4) + (s.seg (s.wrRef i).toNat).delta
  else s.field (s.wrPos i + 4)

def entry : Word := (s.seg s.entrySeg).place + s.entryOff

/-! ## Checks -/

def HeaderOk : Prop := 28 ≤ s.len.toNat ∧ s.field 0 = magic ∧ s.field 4 = 0 ∧ s.nSeg ≤ 16

def SegOk (i : Nat) : Prop := (s.seg i).place % 4 = 0 ∧ (s.seg i).size % 4 = 0

/-- The loader's test of a relocation: the end of the word is computed in 32 bits. -/
def RelOk (i : Nat) : Prop :=
  s.relSeg i < s.nSeg ∧ s.relRef i < s.nSeg ∧ s.relOff i % 4 = 0 ∧
    s.relOff i + 4 ≤ (s.seg (s.relSeg i)).size

def WrOk (i : Nat) : Prop := s.wrRef i = refAbs ∨ (s.wrRef i).toNat < s.nSeg

def EntryOk : Prop :=
  s.entrySeg < s.nSeg ∧ s.entryOff < (s.seg s.entrySeg).size ∧ s.entry % 8 = 0

/-- The two size tests, as the loader makes them. -/
def TablesOk : Prop := s.tables % 2 ^ 32 ≤ s.len.toNat
def NeedOk : Prop := (s.tables + s.sizes) % 2 ^ 32 ≤ s.len.toNat

def Accepted : Prop :=
  s.HeaderOk ∧ s.TablesOk ∧ (∀ i < s.nSeg, s.SegOk i) ∧ s.NeedOk ∧
    (∀ i < s.nRel, s.RelOk i) ∧ (∀ i < s.nWr, s.WrOk i) ∧ s.EntryOk

end Source

/-! ## Accesses -/

/-- The bytes of `n` positions from `pos` on. -/
def Looks (pos n : Nat) (e : Access) : Prop := ∃ k < n, e = .look (BitVec.ofNat 32 (pos + k))

theorem looks_zero {pos : Nat} {e : Access} : ¬Looks pos 0 e := by
  rintro ⟨k, hk, _⟩
  exact absurd hk (by omega)

theorem looks_add {pos m n : Nat} {e : Access} :
    Looks pos (m + n) e ↔ Looks pos m e ∨ Looks (pos + m) n e := by
  constructor
  · rintro ⟨k, hk, rfl⟩
    rcases Nat.lt_or_ge k m with hm | hm
    · exact .inl ⟨k, hm, rfl⟩
    · refine .inr ⟨k - m, by omega, ?_⟩
      rw [show pos + m + (k - m) = pos + k by omega]
  · rintro (⟨k, hk, rfl⟩ | ⟨k, hk, rfl⟩)
    · exact ⟨k, by omega, rfl⟩
    · exact ⟨m + k, by omega, by rw [Nat.add_assoc]⟩

/-- From a position within `len` on, exactly the reads that end within `len` stay below it. -/
theorem looks_below {pos n : Nat} {len : Word} (hpos : pos ≤ len.toNat) :
    (∀ off, Looks pos n (.look off) → off < len) ↔ pos + n ≤ len.toNat := by
  constructor
  · intro h
    by_contra hgt
    have := h len ⟨len.toNat - pos, by omega, by
      rw [show pos + (len.toNat - pos) = len.toNat by omega, ofNat_toNat,
        setWidth_eq]⟩
    exact absurd this (BitVec.lt_irrefl len)
  · rintro hle off ⟨k, hk, he⟩
    rw [Access.look.inj he, lt_def, toNat_ofNat]
    omega

variable {σ : Type} (bus : Bus σ) (s : Source) {α : Type}

/-- What a scan of a table of `n` entries of `w` bytes looks at, where entry `i`
    is read when all before it passed. -/
def Scans (base w n : Nat) (ok : Nat → Prop) (e : Access) : Prop :=
  ∃ i < n, (∀ j < i, ok j) ∧ Looks (base + w * i) w e

theorem scans_below {base w n : Nat} {ok : Nat → Prop} {len : Word} (hbase : base ≤ len.toNat) :
    (∀ off, Scans base w n ok (.look off) → off < len) ↔
      ∀ i < n, (∀ j < i, ok j) → base + w * i + w ≤ len.toNat := by
  constructor
  · intro h i hi hok
    -- the entry starts within `len`, because the one before it ends there
    have hstart : base + w * i ≤ len.toNat := by
      induction i with
      | zero => exact hbase
      | succ i ih =>
        have hok' : ∀ j < i, ok j := fun j hj => hok j (by omega)
        have := (looks_below (ih (by omega) hok')).mp fun off hoff =>
          h off ⟨i, by omega, hok', hoff⟩
        rw [Nat.mul_succ]
        omega
    exact (looks_below hstart).mp fun off hoff => h off ⟨i, hi, hok, hoff⟩
  · rintro h off ⟨i, hi, hok, hoff⟩
    have := h i hi hok
    exact (looks_below (by omega)).mpr this off hoff

/-- A table all of whose entries are read and end within `len` ends within `len`. -/
theorem scan_end_le {base w n len : Nat} {ok : Nat → Prop} (hbase : base ≤ len)
    (hfit : ∀ i < n, (∀ j < i, ok j) → base + w * i + w ≤ len) (hok : ∀ i < n, ok i) :
    base + w * n ≤ len := by
  cases n with
  | zero => exact hbase
  | succ n =>
    have := hfit n (by omega) fun j hj => hok j (by omega)
    rw [Nat.mul_succ]
    omega

/-! ## Effects -/

/-- The stores through `mmio_write`. -/
def Access.mmio? : Access → Option (Word × Word)
  | .mmio addr val => some (addr, val)
  | _ => none

namespace Source

def copyWord (place : Word) (pos : Nat) (m : σ) (n : Nat) : σ :=
  bus.write m (place + BitVec.ofNat 32 (4 * n)) (s.field (pos + 4 * n))

/-- One segment copied from a position. -/
def copySeg (p : Placed) (pos : Nat) (m : σ) : σ :=
  (List.range (p.size.toNat / 4)).foldl (s.copyWord bus p.place pos) m

/-- Segments copied one after the other. -/
def copied : List Placed → Nat → σ → σ
  | [], _, m => m
  | p :: ps, pos, m => copied ps (pos + p.size.toNat) (s.copySeg bus p pos m)

def relocWord (m : σ) (i : Nat) : σ :=
  bus.write m (s.relTarget i) (bus.read m (s.relTarget i) + (s.seg (s.relRef i)).delta)

def relocated (m : σ) : σ := (List.range s.nRel).foldl (s.relocWord bus) m

/-- The init writes, in table order. -/
def inits : List (Word × Word) := (List.range s.nWr).map fun i => (s.wrAddr i, s.wrVal i)

end Source

/-- Stores in order. -/
def Bus.writes (m : σ) (ws : List (Word × Word)) : σ := ws.foldl (fun m w => bus.write m w.1 w.2) m

def Source.loaded (m : σ) : σ :=
  bus.writes (s.relocated bus (s.copied bus s.segs (s.tables % 2 ^ 32) m)) s.inits

/-! ## One rule per part of the loader -/

theorem toNat_mod_four {w : Word} (h : w % 4 = 0) : w.toNat % 4 = 0 :=
  congrArg BitVec.toNat h

theorem rd32_does (pos : Nat) :
    Does Access.mmio? (rd32 s (BitVec.ofNat 32 pos) : LoadM σ Word) True (s.field pos)
      (Looks pos 4) id [] := by
  refine ((Does.emits _).bind fun _ => Does.pure (s.field pos)).congr (and_self True).to_iff ?_
    rfl rfl
  intro e
  simp only [mem_cons, not_mem_nil, or_false, and_false]
  constructor
  · rintro (rfl | rfl | rfl | rfl)
    · exact ⟨0, by omega, rfl⟩
    · exact ⟨1, by omega, by rw [ofNat_add]; rfl⟩
    · exact ⟨2, by omega, by rw [ofNat_add]; rfl⟩
    · exact ⟨3, by omega, by rw [ofNat_add]; rfl⟩
  · rintro ⟨k, hk, rfl⟩
    simp only [ofNat_add]
    match k with
    | 0 => exact .inl (by rw [BitVec.add_zero])
    | 1 => exact .inr (.inl rfl)
    | 2 => exact .inr (.inr (.inl rfl))
    | 3 => exact .inr (.inr (.inr rfl))

theorem segTab_add (i : Nat) :
    segTab + BitVec.ofNat 32 i * 8 = BitVec.ofNat 32 (Source.segPos i) := by
  apply eq_of_toNat_eq
  simp only [segTab, Source.segPos, ofNat_eq_ofNat, toNat_add, toNat_mul,
    toNat_ofNat]
  omega

theorem segRound_does (i : Nat) (acc : List Placed × Word) :
    Does Access.mmio? (segRound s i acc : LoadM σ _) (s.SegOk i)
      (acc.1 ++ [s.seg i], acc.2 + (s.seg i).size) (Looks (Source.segPos i) 8) id [] := by
  unfold segRound
  rw [segTab_add, show BitVec.ofNat 32 (Source.segPos i) + 4 =
    BitVec.ofNat 32 (Source.segPos i + 4) from (ofNat_add _ _).symm]
  refine ((rd32_does s _).bind fun _ => (rd32_does s _).bind fun _ => (Does.refuse _ _).bind
    fun _ => Does.pure (acc.1 ++ [s.seg i], acc.2 + (s.seg i).size)).congr ?_ ?_ rfl rfl
  · simp only [true_and, and_true, not_or, not_not]
    rfl
  · intro e
    rw [looks_add (m := 4) (n := 4)]
    simp

theorem copyWords_does (place src : Word) (k : Nat) (pos off : Nat)
    (hpos : src + BitVec.ofNat 32 off = BitVec.ofNat 32 pos) :
    Does Access.mmio? (copyWords bus s place src k (BitVec.ofNat 32 off)) True ()
      (Looks pos (4 * k)) (fun m => (List.range k).foldl
        (s.copyWord bus (place + BitVec.ofNat 32 off) pos) m) [] := by
  induction k generalizing pos off with
  | zero =>
    exact (Does.pure ()).congr Iff.rfl (fun e => ⟨False.elim, fun h => absurd h looks_zero⟩) rfl rfl
  | succ k ih =>
    have hnext : src + BitVec.ofNat 32 (off + 4) = BitVec.ofNat 32 (pos + 4) := by
      rw [ofNat_add, ofNat_add, ← BitVec.add_assoc, hpos]
    unfold copyWords
    rw [hpos, show BitVec.ofNat 32 off + 4 = BitVec.ofNat 32 (off + 4) from
      (ofNat_add _ _).symm]
    refine ((rd32_does s _).bind fun _ => (Does.act fun m => bus.write m _ _).bind fun _ =>
      ih _ _ hnext).congr (by simp only [and_self]) ?_ ?_ rfl
    · intro e
      rw [show 4 * (k + 1) = 4 + 4 * k by omega, looks_add]
      simp
    · funext m
      rw [range_succ_eq_map, foldl_cons, foldl_map]
      have hstep : ∀ (m : σ) (n : Nat), s.copyWord bus (place + BitVec.ofNat 32 off) pos m (n + 1) =
          s.copyWord bus (place + BitVec.ofNat 32 (off + 4)) (pos + 4) m n := by
        intro m n
        unfold Source.copyWord
        rw [BitVec.add_assoc, BitVec.add_assoc, ← ofNat_add, ← ofNat_add,
          show off + 4 * (n + 1) = off + 4 + 4 * n by omega,
          show pos + 4 * (n + 1) = pos + 4 + 4 * n by omega]
      have hfirst : s.copyWord bus (place + BitVec.ofNat 32 off) pos m 0 =
          bus.write m (place + BitVec.ofNat 32 off) (s.field pos) := by
        unfold Source.copyWord
        rw [BitVec.add_zero, Nat.add_zero]
      simp only [hstep, hfirst]
      rfl

theorem copySegs_does (ps : List Placed) (pos : Nat) (hsize : ∀ p ∈ ps, p.size % 4 = 0) :
    Does Access.mmio? (copySegs bus s ps (BitVec.ofNat 32 pos)) True ()
      (Looks pos (ps.map fun p => p.size.toNat).sum) (s.copied bus ps pos) [] := by
  induction ps generalizing pos with
  | nil =>
    exact (Does.pure ()).congr Iff.rfl (fun e => ⟨False.elim, fun h => absurd h looks_zero⟩) rfl rfl
  | cons p ps ih =>
    have hwords : 4 * (p.size.toNat / 4) = p.size.toNat := by
      have := toNat_mod_four (hsize p mem_cons_self)
      omega
    have hcopy := copyWords_does bus s p.place (BitVec.ofNat 32 pos) (p.size.toNat / 4) pos 0
      (BitVec.add_zero _)
    rw [hwords] at hcopy
    unfold copySegs
    rw [show BitVec.ofNat 32 pos + p.size = BitVec.ofNat 32 (pos + p.size.toNat) by
      rw [ofNat_add, ofNat_toNat, setWidth_eq]]
    refine (hcopy.bind fun _ => ih _ fun q hq => hsize q (mem_cons_of_mem _ hq)).congr
      (by simp only [and_self]) ?_ ?_ rfl
    · intro e
      rw [map_cons, sum_cons, looks_add]
      simp only [true_and]
    · funext m
      rw [show p.place + BitVec.ofNat 32 0 = p.place from BitVec.add_zero _]
      rfl

theorem relTab_add (i : Nat) :
    segTab + s.field 8 * 8 + BitVec.ofNat 32 i * 12 = BitVec.ofNat 32 (s.relPos i) := by
  apply eq_of_toNat_eq
  simp only [segTab, Source.relPos, Source.nSeg, ofNat_eq_ofNat, toNat_add,
    toNat_mul, toNat_ofNat]
  omega

theorem wrTab_add (i : Nat) :
    segTab + s.field 8 * 8 + s.field 12 * 12 + BitVec.ofNat 32 i * 12 =
      BitVec.ofNat 32 (s.wrPos i) := by
  apply eq_of_toNat_eq
  simp only [segTab, Source.wrPos, Source.nSeg, Source.nRel, ofNat_eq_ofNat,
    toNat_add, toNat_mul, toNat_ofNat]
  omega

theorem getD_segs {i : Nat} (hi : i < s.nSeg) : s.segs.getD i default = s.seg i := by
  rw [getD_eq_getElem?_getD, Source.segs, getElem?_map, getElem?_range hi]
  rfl

/-- Three words of a table entry. -/
theorem entry_does {f : Word → Word → Word → LoadM σ α} {q : Prop} {w : α}
    {M : Access → Prop} {g : σ → σ} {es : List (Word × Word)} {pos : Nat}
    (hf : Does Access.mmio? (f (s.field pos) (s.field (pos + 4)) (s.field (pos + 8))) q w M g es) :
    Does Access.mmio? (do
      let a ← rd32 s (BitVec.ofNat 32 pos)
      let b ← rd32 s (BitVec.ofNat 32 pos + 4)
      let c ← rd32 s (BitVec.ofNat 32 pos + 8)
      f a b c) q w (fun e => Looks pos 12 e ∨ M e) g es := by
  rw [show BitVec.ofNat 32 pos + 4 = BitVec.ofNat 32 (pos + 4) from (ofNat_add _ _).symm,
    show BitVec.ofNat 32 pos + 8 = BitVec.ofNat 32 (pos + 8) from (ofNat_add _ _).symm]
  refine ((rd32_does s _).bind fun _ => (rd32_does s _).bind fun _ =>
    (rd32_does s _).bind fun _ => hf).congr (by simp only [true_and]) ?_ rfl rfl
  intro e
  rw [show 12 = 4 + (4 + 4) from rfl, looks_add, looks_add]
  simp only [true_and, or_assoc]

theorem relocWord_does (addr delta : Word) :
    Does Access.mmio? (do
      let w ← rd32Sram bus addr
      wr32Sram bus addr (w + delta)) True () (fun _ => False)
      (fun m => bus.write m addr (bus.read m addr + delta)) [] where
  ok _ _ := rfl
  refused h := absurd trivial h
  log _ _ := (or_false _).symm.to_iff
  state _ _ _ := rfl
  seen _ _ _ := (append_nil _).symm

theorem relOk_iff (i : Nat) :
    ¬(s.field 8 ≤ s.field (s.relPos i) ∨ s.field 8 ≤ s.field (s.relPos i + 8) ∨
      s.field (s.relPos i + 4) % 4 ≠ 0 ∨
      (s.segs.getD (s.field (s.relPos i)).toNat default).size < s.field (s.relPos i + 4) + 4) ↔
      s.RelOk i := by
  simp only [not_or, not_not, BitVec.not_le, BitVec.not_lt]
  apply and_congr_right
  intro hseg
  rw [getD_segs s (lt_def.mp hseg)]
  rfl

theorem relocRound_does (i : Nat) :
    Does Access.mmio? (relocRound bus s s.segs (s.field 8) (segTab + s.field 8 * 8) i ())
      (s.RelOk i) () (fun e => Looks (s.relPos i) 12 e ∨ s.RelOk i ∧ e = .relocate (s.relTarget i))
      (fun m => s.relocWord bus m i) [] := by
  unfold relocRound
  rw [relTab_add]
  apply entry_does
  refine .of_effect (((Spec.refuse _ _).bind fun _ => (Spec.emits _).bind fun _ =>
    (relocWord_does bus _ _).toSpec).congr ?_ fun e => ?_) fun hok => ?_
  · rw [and_true, and_true]
    exact relOk_iff s i
  · rw [relOk_iff, false_or]
    apply and_congr_right
    intro hok
    rw [show s.segs.getD (s.field (s.relPos i)).toNat default = _ from getD_segs s hok.1,
      and_false, or_false, mem_singleton]
    rfl
  · rw [show s.segs.getD (s.field (s.relPos i)).toNat default = _ from getD_segs s hok.1,
      show s.segs.getD (s.field (s.relPos i + 8)).toNat default = _ from getD_segs s hok.2.1]
    exact (Effect.bind (Spec.refuse _ _) (Effect.refuse _ _) fun _ =>
      Effect.bind (Spec.emits _) (Effect.emits _) fun _ =>
        (relocWord_does bus _ _).toEffect).congr rfl rfl

theorem wrOk_iff (i : Nat) :
    ¬(s.field (s.wrPos i + 8) ≠ refAbs ∧ s.field 8 ≤ s.field (s.wrPos i + 8)) ↔ s.WrOk i := by
  simp only [not_and_or, not_not, BitVec.not_le, lt_def]
  rfl

theorem wrVal_eq {i : Nat} (hok : s.WrOk i) : (if s.field (s.wrPos i + 8) ≠ refAbs then
    s.field (s.wrPos i + 4) + (s.segs.getD (s.field (s.wrPos i + 8)).toNat default).delta
    else s.field (s.wrPos i + 4)) = s.wrVal i := by
  unfold Source.WrOk at hok
  unfold Source.wrVal
  unfold Source.wrRef at *
  by_cases habs : s.field (s.wrPos i + 8) = refAbs
  · rw [if_neg (not_not.mpr habs), if_neg (not_not.mpr habs)]
  · rw [if_pos habs, if_pos habs, getD_segs s (hok.resolve_left habs)]

theorem mmioWrite_does (addr val : Word) :
    Does Access.mmio? (mmioWrite bus addr val) True () (fun e => e = .mmio addr val)
      (fun m => bus.write m addr val) [(addr, val)] := by
  refine ((Does.emits _).bind fun _ => Does.act fun m => bus.write m addr val).congr
    (and_self True).to_iff (fun e => ?_) rfl rfl
  rw [mem_singleton, and_false, or_false]

theorem writeRound_does (i : Nat) :
    Does Access.mmio? (writeRound bus s s.segs (s.field 8)
      (segTab + s.field 8 * 8 + s.field 12 * 12) i ()) (s.WrOk i) ()
      (fun e => Looks (s.wrPos i) 12 e ∨ s.WrOk i ∧ e = .mmio (s.wrAddr i) (s.wrVal i))
      (fun m => bus.write m (s.wrAddr i) (s.wrVal i)) [(s.wrAddr i, s.wrVal i)] := by
  unfold writeRound
  rw [wrTab_add]
  apply entry_does
  refine .of_effect (((Spec.refuse _ _).bind fun _ => (mmioWrite_does bus _ _).toSpec).congr ?_
    fun e => ?_) fun hok => ?_
  · rw [and_true]
    exact wrOk_iff s i
  · rw [wrOk_iff, false_or]
    apply and_congr_right
    intro hok
    rw [wrVal_eq s hok]
    rfl
  · rw [wrVal_eq s hok]
    exact (Effect.bind (Spec.refuse _ _) (Effect.refuse _ _) fun _ =>
      (mmioWrite_does bus _ _).toEffect).congr rfl rfl

/-! ## The whole load -/

theorem foldl_segs (n i : Nat) (acc : List Placed × Word) :
    (List.range' i n).foldl (fun a j => (a.1 ++ [s.seg j], a.2 + (s.seg j).size)) acc =
      (acc.1 ++ (List.range' i n).map s.seg,
        acc.2 + BitVec.ofNat 32 (((List.range' i n).map s.seg).map fun p => p.size.toNat).sum) := by
  induction n generalizing i acc with
  | zero => simp
  | succ n ih =>
    rw [range'_succ, foldl_cons, ih]
    simp only [map_cons, sum_cons, ofNat_add, ofNat_toNat,
      setWidth_eq, append_assoc, singleton_append, BitVec.add_assoc]

theorem segData_eq :
    segTab + s.field 8 * 8 + s.field 12 * 12 + s.field 16 * 12 = BitVec.ofNat 32 s.tables := by
  apply eq_of_toNat_eq
  simp only [segTab, Source.tables, Source.nSeg, Source.nRel, Source.nWr, ofNat_eq_ofNat,
    toNat_add, toNat_mul, toNat_ofNat]
  omega

/-- A loop over a table from its first entry. -/
theorem table_does {body : Nat → α → LoadM σ α} {ok : Nat → Prop} {v : Nat → α → α}
    {M : Nat → Access → Prop} {f : σ → Nat → σ} {es : Nat → List (Word × Word)} (base w : Nat)
    (h : ∀ i a, Does Access.mmio? (body i a) (ok i) (v i a)
      (fun e => Looks (base + w * i) w e ∨ M i e) (fun m => f m i) (es i)) (n : Nat) (a : α) :
    Does Access.mmio? (Logged.loop body n 0 a) (∀ i < n, ok i)
      ((List.range n).foldl (fun a i => v i a) a)
      (fun e => Scans base w n ok e ∨ ∃ i < n, (∀ j < i, ok j) ∧ M i e)
      (fun m => (List.range n).foldl f m) ((List.range n).flatMap es) := by
  rw [range_eq_range']
  refine ⟨(Spec.loop (fun i a => (h i a).toSpec) n 0 a).congr ?_ fun e => ?_,
    Effect.loop (fun i a => (h i a).toSpec) (fun i a _ => (h i a).toEffect) n 0 a⟩
  · simp
  · simp [Scans, and_or_left, exists_or]

namespace Source

/-- The accesses of the relocation loop and of the loop over the init writes. -/
def RelLogs (e : Access) : Prop :=
  Scans (28 + 8 * s.nSeg) 12 s.nRel s.RelOk e ∨
    ∃ i < s.nRel, (∀ j < i, s.RelOk j) ∧ s.RelOk i ∧ e = .relocate (s.relTarget i)

def WrLogs (e : Access) : Prop :=
  Scans (28 + 8 * s.nSeg + 12 * s.nRel) 12 s.nWr s.WrOk e ∨
    ∃ i < s.nWr, (∀ j < i, s.WrOk j) ∧ s.WrOk i ∧ e = .mmio (s.wrAddr i) (s.wrVal i)

/-- The accesses of the load behind the header. -/
def BodyLogs (e : Access) : Prop :=
  Scans 28 8 s.nSeg s.SegOk e ∨
    (∀ i < s.nSeg, s.SegOk i) ∧ s.NeedOk ∧
      (Looks (s.tables % 2 ^ 32) s.sizes e ∨ s.RelLogs e ∨ (∀ i < s.nRel, s.RelOk i) ∧ s.WrLogs e)

def Logs (e : Access) : Prop :=
  28 ≤ s.len.toNat ∧ (Looks 0 4 e ∨ s.field 0 = magic ∧ (Looks 4 4 e ∨ s.field 4 = 0 ∧
    (Looks 8 20 e ∨ s.nSeg ≤ 16 ∧ s.TablesOk ∧ s.BodyLogs e)))

end Source

theorem tablesOk_iff : ¬s.len < BitVec.ofNat 32 s.tables ↔ s.TablesOk := by
  rw [BitVec.not_lt, le_def]
  rfl

theorem segLoop_does :
    Does Access.mmio? (Logged.loop (segRound s) (s.field 8).toNat 0
      ([], BitVec.ofNat 32 s.tables) : LoadM σ _) (∀ i < s.nSeg, s.SegOk i)
      (s.segs, BitVec.ofNat 32 (s.tables + s.sizes)) (Scans 28 8 s.nSeg s.SegOk) id [] := by
  have h := table_does (M := fun _ _ => False) (f := fun (m : σ) _ => m) 28 8
    (fun i acc => (segRound_does s i acc).congr Iff.rfl (fun e => (or_false _).symm.to_iff) rfl rfl)
    s.nSeg ([], BitVec.ofNat 32 s.tables)
  rw [range_eq_range', foldl_segs, ← range_eq_range'] at h
  rw [ofNat_add]
  refine h.congr Iff.rfl (fun e => ?_) (funext fun m => ?_) ?_
  · simp
  · induction List.range s.nSeg with
    | nil => rfl
    | cons i is ih => exact ih
  · exact flatMap_eq_nil_iff.mpr fun _ _ => rfl

theorem relLoop_does :
    Does Access.mmio? (Logged.loop (relocRound bus s s.segs (s.field 8) (segTab + s.field 8 * 8))
      (s.field 12).toNat 0 ()) (∀ i < s.nRel, s.RelOk i) () s.RelLogs (s.relocated bus) [] :=
  (table_does (v := fun _ _ => ()) _ _ (fun i _ => relocRound_does bus s i) s.nRel ()).congr Iff.rfl
    (fun _ => Iff.rfl) rfl (flatMap_eq_nil_iff.mpr fun _ _ => rfl)

theorem wrLoop_does :
    Does Access.mmio? (Logged.loop (writeRound bus s s.segs (s.field 8)
      (segTab + s.field 8 * 8 + s.field 12 * 12)) (s.field 16).toNat 0 ())
      (∀ i < s.nWr, s.WrOk i) () s.WrLogs (fun m => bus.writes m s.inits) s.inits := by
  refine (table_does (v := fun _ _ => ()) _ _ (fun i _ => writeRound_does bus s i) s.nWr ()).congr
    Iff.rfl (fun _ => Iff.rfl) (funext fun m => ?_) ?_
  · rw [Bus.writes, Source.inits, foldl_map]
  · rw [Source.inits, map_eq_flatMap]

theorem entryTail_does :
    Does Access.mmio? (do
      Logged.refuse (s.field 8 ≤ s.field 20 ∨
        (s.segs.getD (s.field 20).toNat default).size ≤ s.field 24) .range
      Logged.refuse (((s.segs.getD (s.field 20).toNat default).place + s.field 24) % 8 ≠ 0) .align
      return (s.segs.getD (s.field 20).toNat default).place + s.field 24 : LoadM σ Word)
      s.EntryOk s.entry (fun _ => False) id [] := by
  by_cases hseg : s.field 20 < s.field 8
  · rw [getD_segs s (lt_def.mp hseg)]
    refine ((Does.refuse _ _).bind fun _ => (Does.refuse _ _).bind fun _ =>
      Does.pure s.entry).congr ?_ ?_ rfl rfl
    · rw [not_or, BitVec.not_le, BitVec.not_le, not_not, and_true, and_assoc]
      rfl
    · simp
  · have hno : ¬s.EntryOk := fun h => hseg (lt_def.mpr h.1)
    refine .of_effect (((Spec.refuse _ _).bind (w := s.entry) (q := False) (M := fun _ => False)
      fun h => absurd (BitVec.not_le.mp (not_or.mp h).1) hseg).congr ?_ ?_) fun h => absurd h hno
    · exact ⟨fun h => h.2.elim, fun h => absurd h hno⟩
    · simp

theorem size_mod_four (hok : ∀ i < s.nSeg, s.SegOk i) : ∀ p ∈ s.segs, p.size % 4 = 0 := by
  intro p hp
  obtain ⟨i, hi, rfl⟩ := mem_map.mp hp
  exact (hok i (mem_range.mp hi)).2

theorem needOk_iff : ¬s.len < BitVec.ofNat 32 (s.tables + s.sizes) ↔ s.NeedOk := by
  rw [BitVec.not_lt, le_def]
  rfl

theorem copy_does (hok : ∀ i < s.nSeg, s.SegOk i) :
    Does Access.mmio? (copySegs bus s s.segs (BitVec.ofNat 32 s.tables)) True ()
      (Looks (s.tables % 2 ^ 32) s.sizes) (s.copied bus s.segs (s.tables % 2 ^ 32)) [] := by
  have h := copySegs_does bus s s.segs (s.tables % 2 ^ 32) (size_mod_four s hok)
  rw [show BitVec.ofNat 32 (s.tables % 2 ^ 32) = BitVec.ofNat 32 s.tables from
    eq_of_toNat_eq (by simp only [toNat_ofNat, Nat.mod_mod])] at h
  exact h

theorem loadTables_does :
    Does Access.mmio?
      (loadTables bus s (s.field 8) (s.field 12) (s.field 16) (s.field 20) (s.field 24))
      (s.TablesOk ∧ (∀ i < s.nSeg, s.SegOk i) ∧ s.NeedOk ∧ (∀ i < s.nRel, s.RelOk i) ∧
        (∀ i < s.nWr, s.WrOk i) ∧ s.EntryOk) s.entry
      (fun e => s.TablesOk ∧ s.BodyLogs e) (s.loaded bus) s.inits := by
  unfold loadTables
  dsimp only
  rw [segData_eq]
  refine ((Does.refuse _ _).bind fun _ => (segLoop_does s).bind fun hok =>
    (Does.refuse _ _).bind fun _ => (copy_does bus s hok).bind fun _ => (relLoop_does bus s).bind
    fun _ => (wrLoop_does bus s).bind fun _ => entryTail_does s).congr ?_ (fun e => ?_) rfl ?_
  · rw [tablesOk_iff, needOk_iff, true_and]
  · simp only [tablesOk_iff, needOk_iff, false_or, true_and, and_false, or_false]
    rfl
  · simp only [nil_append, append_nil]

/-- `dmx_load`, whole. -/
theorem dmxLoad_does :
    Does Access.mmio? (dmxLoad bus s) s.Accepted s.entry s.Logs (s.loaded bus) s.inits := by
  have hmax : ¬maxSegments < s.field 8 ↔ s.nSeg ≤ 16 := BitVec.not_lt
  have hlen : ¬s.len < 7 * 4 ↔ 28 ≤ s.len.toNat := BitVec.not_lt
  refine ((Does.refuse _ _).bind fun _ => (rd32_does s 0).bind fun _ =>
    (Does.refuse _ _).bind fun _ => (rd32_does s 4).bind fun _ => (Does.refuse _ _).bind fun _ =>
    (rd32_does s 8).bind fun _ => (rd32_does s 12).bind fun _ => (rd32_does s 16).bind fun _ =>
    (rd32_does s 20).bind fun _ => (rd32_does s 24).bind fun _ => (Does.refuse _ _).bind fun _ =>
    loadTables_does bus s).congr ?_ (fun e => ?_) rfl (by simp only [nil_append])
  · simp only [hmax, hlen, not_not, true_and, Source.Accepted, Source.HeaderOk, and_assoc]
  · have hcounts : Looks 8 20 e ↔
        Looks 8 4 e ∨ Looks 12 4 e ∨ Looks 16 4 e ∨ Looks 20 4 e ∨ Looks 24 4 e := by
      rw [show 20 = 4 + (4 + (4 + (4 + 4))) from rfl, looks_add, looks_add, looks_add, looks_add]
    simp only [hmax, hlen, not_not, true_and, false_or, Source.Logs, hcounts, or_assoc]

/-! ## The start -/

variable (v : Emu.Variant) (cfg : MachineCfg) (entry : Word)

/-- `dmx_start`'s own checks. -/
def MachineCfg.StartOk : Prop :=
  if cfg.compact then entry % 8 = 0
  else ¬(cfg.fetch = cfg.exec ∨ cfg.exec = cfg.fix ∨ cfg.fetch = cfg.fix) ∧ entry % 16 = 0

/-- The stores of `dmx_start`, in order. -/
def MachineCfg.startWrites : List (Word × Word) :=
  if cfg.compact then compactWrites v entry
  else (cfg.scratch, chReg cfg.exec 0) :: classicWrites v cfg entry

theorem mmioWrites_does (ws : List (Word × Word)) :
    Does Access.mmio? (mmioWrites bus ws) True () (fun e => ∃ w ∈ ws, e = .mmio w.1 w.2)
      (fun m => bus.writes m ws) ws := by
  induction ws with
  | nil =>
    refine (Does.pure ()).congr Iff.rfl ?_ rfl rfl
    simp only [not_mem_nil, false_and, exists_false, implies_true]
  | cons w ws ih =>
    refine ((mmioWrite_does bus w.1 w.2).bind fun _ => ih).congr (and_self True).to_iff ?_ rfl rfl
    simp only [true_and, mem_cons, exists_eq_or_imp, implies_true]

theorem dmxStart_does : ∃ L es, Does Access.mmio? (dmxStart v bus cfg entry) (cfg.StartOk entry) ()
    L (fun m => bus.writes m (cfg.startWrites v entry)) es := by
  unfold dmxStart MachineCfg.StartOk MachineCfg.startWrites
  cases cfg.compact with
  | true =>
    refine ⟨_, _, ((Does.refuse _ _).bind fun _ => mmioWrites_does bus _).congr ?_
      (fun e => Iff.rfl) rfl rfl⟩
    simp
  | false =>
    refine ⟨_, _, ((Does.refuse _ _).bind fun _ => (Does.refuse _ _).bind fun _ =>
      (Does.act fun m => bus.write m _ _).bind fun _ => mmioWrites_does bus _).congr ?_
      (fun e => Iff.rfl) rfl rfl⟩
    simp

end DmaCpu.Dmx
