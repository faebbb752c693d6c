-- SUMMARY: `SYS_exec` of a file changes nothing or starts a complete image, but for a truncated relocation table.
import DmaCpu.Xv6.ArenaSpec
import DmaCpu.Xv6.Effects
import DmaCpu.Xv6.ExecLoad

/-!
# Exec, all or nothing

A refused `exec` gives both blocks back, so the arena and every byte outside its free
blocks are as before. A started one has read the file to the end of the data segment.
What it does not check is whether the relocations were all there: the loop just ends
at a short read.
-/
namespace DmaCpu.Xv6.Exec

open FreeList Function List Nat
open Dmx (slice le32)
open BitVec (toNat_ofNat toNat_add_of_lt toNat_add lt_def le_def isLt toNat_sub)

/-! ## Writes near an address -/

/-- Nothing is written but the `n` bytes from `a` on. -/
def Within (a : Word) (n : Nat) (m m' : Memory) : Prop := ∀ x, n ≤ (x - a).toNat → m' x = m x

section

variable {a x v : Word} {n k j : Nat} {m m₁ m₂ : Memory}

theorem Within.refl (a : Word) (n : Nat) (m : Memory) : Within a n m m := fun _ _ => rfl

theorem Within.trans (h₁ : Within a n m m₁) (h₂ : Within a n m₁ m₂) : Within a n m m₂ :=
  fun x hx => (h₂ x hx).trans (h₁ x hx)

theorem toNat_add_sub (a : Word) (hj : j < 2 ^ 32) : (a + BitVec.ofNat 32 j - a).toNat = j := by
  rw [BitVec.add_comm, BitVec.add_sub_cancel, toNat_ofNat, mod_eq_of_lt hj]

theorem within_update (hj : j < n) (_ : n ≤ 2 ^ 32) (b : Byte) :
    Within a n m (update m (a + BitVec.ofNat 32 j) b) := by
  intro x hx
  apply update_of_ne
  rintro rfl
  rw [toNat_add_sub a (by omega)] at hx
  omega

theorem within_st (hj : j + 4 ≤ n) (_ : n ≤ 2 ^ 32)
    (hst : m.st (a + BitVec.ofNat 32 j) v = some m₁) : Within a n m m₁ := by
  unfold Memory.st at hst
  split at hst
  · cases hst
    intro x hx
    rw [Blit.eq_add_ofNat a x, Blit.blit_add (by omega) (x - a).isLt, if_neg (by omega)]
  · cases hst

end

/-! ## The argument area -/

section

variable {area : Word}

/-- A string and its end are written from `sp` on, and not past the limit unless `sp`
    was there. -/
theorem copyArg_within (harea : area.toNat + 0x200 ≤ 2 ^ 32) {n : Nat} (hn : n ≤ 14) (fuel : Nat)
    (s : Word) (m : Memory) (j : Nat) (hj : j ≤ 255 + n) : ∃ m' j', copyArg (area + 256 - 1) fuel s (area + BitVec.ofNat 32 j) m =
      (m', area + BitVec.ofNat 32 j') ∧ j' ≤ 256 + n ∧ Within area 270 m m' := by
  have hsucc (j : Nat) : area + BitVec.ofNat 32 j + 1 = area + BitVec.ofNat 32 (j + 1) := by
    rw [BitVec.add_assoc, BitVec.ofNat_add]
    rfl
  have hend (m : Memory) (j : Nat) (hj : j ≤ 255 + n) : ∃ m' j',
      (update m (area + BitVec.ofNat 32 j) 0, area + BitVec.ofNat 32 j + 1) =
        (m', area + BitVec.ofNat 32 j') ∧ j' ≤ 256 + n ∧ Within area 270 m m' :=
    ⟨_, j + 1, by rw [hsucc], by omega, within_update (by omega) (by decide) 0⟩
  induction fuel generalizing s j m with
  | zero => exact hend m j hj
  | succ fuel ih =>
    rw [copyArg]
    split
    next hlt =>
      have hlim : (area + 256 - 1).toNat = area.toNat + 255 := by
        rw [show area + 256 - 1 = area + 255 by rw [BitVec.sub_eq_add_neg, BitVec.add_assoc]; rfl]
        exact toNat_add_of_lt (show area.toNat + 255 < 2 ^ 32 by omega)
      have hsp : (area + BitVec.ofNat 32 j).toNat = area.toNat + j := by
        rw [toNat_add, toNat_ofNat, mod_eq_of_lt (by omega : j < 2 ^ 32),
          mod_eq_of_lt (by omega)]
      have hjlt : j < 255 := by
        have := lt_def.mp hlt.2
        omega
      rw [hsucc]
      obtain ⟨m', j', heq, hj', hw⟩ :=
        ih (s + 1) (update m (area + BitVec.ofNat 32 j) (m s)) (j + 1) (by omega)
      exact ⟨m', j', heq, hj', (within_update (by omega) (by decide) _).trans hw⟩
    next => exact hend m j hj

theorem mod_four_index (halign : area % 4 = 0) (i : Nat) :
    (area + BitVec.ofNat 32 (4 * i)) % 4 = 0 := by
  apply mod_four_add halign
  apply BitVec.eq_of_toNat_eq
  show (BitVec.ofNat 32 (4 * i)).toNat % 4 = 0
  rw [toNat_ofNat]
  omega

/-- The vector and its strings take 270 bytes at most: fourteen more than the area has. -/
theorem copyArgs_within (harea : area.toNat + 0x200 ≤ 2 ^ 32) (halign : area % 4 = 0) (av : Word)
    (m : Memory) (rest argc j : Nat) (hrest : argc + rest = 15) (hj : j ≤ 255 + argc) :
    ∃ m' argc', copyArgs av area rest argc (area + BitVec.ofNat 32 j) m = some (m', argc') ∧
      argc' ≤ 15 ∧ Within area 270 m m' := by
  induction rest generalizing argc j m with
  | zero => exact ⟨m, argc, rfl, by omega, .refl _ _ _⟩
  | succ rest ih =>
    rw [copyArgs]
    split
    next => exact ⟨m, argc, rfl, by omega, .refl _ _ _⟩
    next =>
      generalize m.ld (av + BitVec.ofNat 32 (4 * argc)) = s
      obtain ⟨m₁, hst⟩ := st_aligned (m := m) (v := area + BitVec.ofNat 32 j)
        (mod_four_index halign argc)
      obtain ⟨m₂, j', hcopy, hj', hw⟩ :=
        copyArg_within harea (by omega) 256 s m₁ j hj
      obtain ⟨m', argc', hrec, hle, hw'⟩ := ih m₂ (argc + 1) j' (by omega) (by omega)
      refine ⟨m', argc', ?_, hle, ((within_st (by omega) (by decide) hst).trans hw).trans hw'⟩
      rw [hst, Option.bind_some, hcopy]
      exact hrec

theorem passArgs_within (harea : area.toNat + 0x200 ≤ 2 ^ 32) (halign : area % 4 = 0)
    {av : Word} (hav : av % 4 = 0) (m : Memory) :
    ∃ m' argc argv, passArgs m av area = some (m', argc, argv) ∧ Within area 270 m m' := by
  unfold passArgs
  split
  next => exact ⟨m, 0, 0, rfl, .refl _ _ _⟩
  next =>
    rw [if_neg (not_not.mpr hav)]
    obtain ⟨m₁, argc, hcopy, hle, hw⟩ :=
      copyArgs_within harea halign av m 15 0 64 rfl (by omega)
    obtain ⟨m₂, hst⟩ := st_aligned (m := m₁) (v := 0) (mod_four_index halign argc)
    refine ⟨m₂, BitVec.ofNat 32 argc, area, ?_,
      hw.trans (within_st (by omega) (by decide) hst)⟩
    have hcopy' : copyArgs av area 15 0 (area + 64) m = some (m₁, argc) := hcopy
    rw [hcopy', Option.bind_some]
    simp only [hst, Option.map_some]

end

/-! ## The blocks of the caller -/

/-- A record of a block: none, or the one that it points to. -/
inductive Records : Word → List Block → Prop where
  | none : Records 0 []
  | some (b : Block) : Records (payload b) [b]

/-- The blocks that slot `i` owns are live, and no two of them are the same. -/
structure Owned (k : Kernel) (i : Slot) (live rest : List Block) : Prop where
  intro ::
  blocks : ∃ text data args heap, Records (k.execmem i .text) text ∧
    Records (k.execmem i .data) data ∧ Records (k.execmem i .args) args ∧
    Records (k.heapmem i) heap ∧ live.Perm (text ++ (data ++ (args ++ (heap ++ rest))))

section

variable {k k' : Kernel} {i : Slot} {a : Word} {bs free live rest : List Block}

theorem Owned.congr (ho : Owned k i live rest) (hexec : k'.execmem = k.execmem)
    (hheap : k'.heapmem = k.heapmem) : Owned k' i live rest := by
  obtain ⟨blocks⟩ := ho
  refine ⟨?_⟩
  rwa [hexec, hheap]

/-- Freeing what a record points to. -/
theorem Records.kfree (hr : Records a bs) (h : Heap k free (bs ++ rest)) :
    (∃ free', Heap (k.kfree a) free' rest) ∧ SameElse k (k.kfree a) := by
  cases hr with
  | none =>
    exact ⟨⟨free, h⟩, .refl k⟩
  | some b => exact ⟨⟨_, h.kfree.1⟩, h.kfree.2⟩

theorem setExecmem_execmem (x y : Part) :
    (k.setExecmem i x a).execmem i y = if y = x then a else k.execmem i y := by
  simp [Kernel.setExecmem, update_apply]

/-- One part of the image released. -/
theorem freePart {x : Part} (hr : Records (k.execmem i x) bs) (h : Heap k free (bs ++ rest))
    (hk' : k' = (k.kfree (k.execmem i x)).setExecmem i x 0) :
    (∃ free', Heap k' free' rest) ∧ k'.stuck = k.stuck ∧ k'.heapmem = k.heapmem ∧
      ∀ y, k'.execmem i y = if y = x then 0 else k.execmem i y := by
  obtain ⟨⟨free', hheap⟩, hsame⟩ := hr.kfree h
  subst hk'
  refine ⟨⟨free', hheap.congr rfl⟩, (congrArg Kernel.stuck hsame :), hsame.heapmem_eq, fun y => ?_⟩
  rw [setExecmem_execmem, hsame.execmem_eq]

/-- The image and the heap of slot `i` released. -/
theorem kfreeExec_heap (ho : Owned k i live rest) (h : Heap k free live) :
    (∃ free', Heap (k.kfreeExec i) free' rest) ∧ (k.kfreeExec i).stuck = k.stuck ∧
      ∀ x, (k.kfreeExec i).execmem i x = 0 := by
  obtain ⟨text, data, args, heap, htext, hdata, hargs, hheap, hperm⟩ := ho.blocks
  obtain ⟨⟨free₁, h₁⟩, q₁, hm₁, he₁⟩ := freePart htext (h.perm hperm) rfl
  generalize hk₁ : (k.kfree (k.execmem i .text)).setExecmem i .text 0 = k₁ at h₁ q₁ hm₁ he₁
  have hdata' : Records (k₁.execmem i .data) data := by rwa [he₁]
  obtain ⟨⟨free₂, h₂⟩, q₂, hm₂, he₂⟩ := freePart hdata' h₁ rfl
  generalize hk₂ : (k₁.kfree (k₁.execmem i .data)).setExecmem i .data 0 = k₂ at h₂ q₂ hm₂ he₂
  have hargs' : Records (k₂.execmem i .args) args := by
    rwa [he₂, he₁]
  obtain ⟨⟨free₃, h₃⟩, q₃, hm₃, he₃⟩ := freePart hargs' h₂ rfl
  generalize hk₃ : (k₂.kfree (k₂.execmem i .args)).setExecmem i .args 0 = k₃ at h₃ q₃ hm₃ he₃
  have hheap' : Records (k₃.heapmem i) heap := by rwa [hm₃, hm₂, hm₁]
  obtain ⟨⟨free₄, h₄⟩, hsame⟩ := hheap'.kfree h₃
  have heq : k.kfreeExec i = ((k₃.kfree (k₃.heapmem i)).setHeapmem i 0).setProc i
      { ((k₃.kfree (k₃.heapmem i)).setHeapmem i 0).proc i with
        heapbase := 0, heapmax := 0, brk := 0, sigctx := 0, sigpend := .idle } := by
    rw [← hk₃, ← hk₂, ← hk₁]
    rfl
  have hstuck := (congrArg Kernel.stuck hsame).trans (q₃.trans (q₂.trans q₁))
  rw [heq]
  generalize k₃.kfree (k₃.heapmem i) = k₄ at h₄ hsame hstuck ⊢
  refine ⟨⟨free₄, h₄.congr rfl⟩, hstuck, fun x => ?_⟩
  show k₄.execmem i x = 0
  rw [hsame.execmem_eq, he₃, he₂, he₁]
  cases x <;> rfl

end

/-! ## The line of suspended parents -/

/-- Slots each of which sleeps on the next one, down to a process that is awake. -/
inductive Line (k : Kernel) : List Slot → Prop where
  | base {c : Slot} (awake : (k.proc c).state ≠ .sleeping) : Line k [c]
  | cons {p q : Slot} {l : List Slot} (sleeps : k.SleepsOn p (.proc q)) (new : p ∉ q :: l)
      (rest : Line k (q :: l)) : Line k (p :: q :: l)

section

variable {k k' : Kernel} {p q s : Slot} {l : List Slot}

theorem Line.congr (h : Line k l) (hbare : k'.bare = k.bare) : Line k' l := by
  have hproc (s : Slot) : (k'.proc s).bare = (k.proc s).bare :=
    congrArg (fun k : Kernel => k.proc s) hbare
  induction h with
  | base awake => exact .base ((congrArg Proc.state (hproc _)).trans_ne awake)
  | cons sleeps new _ ih =>
    exact .cons ⟨(congrArg Proc.state (hproc _)).trans sleeps.1,
      (congrArg Proc.chan (hproc _)).trans sleeps.2⟩ new ih

theorem Line.nodup (h : Line k l) : l.Nodup := by
  induction h with
  | base => exact nodup_singleton _
  | cons _ new _ ih => exact nodup_cons.mpr ⟨new, ih⟩

/-- Whoever stands in the line sleeps on someone further down. -/
theorem Line.sleeps_on_tail (h : Line k (q :: l)) (hs : s ∈ q :: l) {x : Slot}
    (hx : k.SleepsOn s (.proc x)) : x ∈ l := by
  generalize hl : q :: l = line at h hs
  induction h generalizing q l with
  | base awake =>
    obtain rfl := mem_singleton.mp hs
    exact absurd hx.1 awake
  | @cons p q' l' sleeps _ _ ih =>
    cases hl
    rcases mem_cons.mp hs with rfl | hs
    · cases sleeps.2.symm.trans hx.2
      exact mem_cons_self
    · exact mem_cons_of_mem _ (ih rfl hs)

theorem Line.extend (h : Line k (q :: l)) (hp : k.SleepsOn p (.proc q)) : Line k (p :: q :: l) :=
  .cons hp (fun hmem => (nodup_cons.mp h.nodup).1 (h.sleeps_on_tail hmem hp)) h

/-- The walk up the line comes to its end. -/
theorem syncBrk_kept (i : Slot) {fuel : Nat} (h : Line k (q :: l))
    (hfuel : nproc < fuel + (q :: l).length) :
    (Kernel.syncBrk i fuel q k).stuck = k.stuck ∧
      (Kernel.syncBrk i fuel q k).arenaState = k.arenaState ∧
      (Kernel.syncBrk i fuel q k).execmem = k.execmem ∧
      (Kernel.syncBrk i fuel q k).heapmem = k.heapmem := by
  induction fuel generalizing k q l with
  | zero =>
    have hlen := h.nodup.length_le_card
    rw [Fintype.card_fin] at hlen
    omega
  | succ fuel ih =>
    rw [Kernel.syncBrk]
    split
    next => exact ⟨rfl, rfl, rfl, rfl⟩
    next par hpar =>
      have hsleeps := Kernel.kfindSleeper_some hpar
      have hfuel' : nproc < fuel + (par :: q :: l).length := by
        show nproc < fuel + ((q :: l).length + 1)
        omega
      exact ih ((h.extend hsleeps).congr (Kernel.setProc_bare rfl)) hfuel'

end

/-- The argument area that a slot has afterwards, apart from the blocks that stay. -/
def AreaOk (area : Word) (rest : List Block) : Prop :=
  area = 0 ∨ ∃ a, area = payload a ∧ Placed a ∧ 0x200 ≤ a.size ∧ a.stop + 0x100 ≤ 2 ^ 32 ∧
    ∀ b ∈ rest, a.Apart b

/-- The kernel after the blocks of slot `i` have changed hands. -/
structure Replaced (k k' : Kernel) (i : Slot) (tb db : Word) (rest : List Block) : Prop where
  text : k'.execmem i .text = tb
  data : k'.execmem i .data = db
  area : AreaOk (k'.execmem i .args) rest
  curr : k'.curr = k.curr
  stuck : k'.stuck = k.stuck

section

variable {k k' : Kernel} {i : Slot} {tb db argv : Word} {free live rest : List Block}

theorem placeArgs_replaced (h : Heap k free rest) (hargs : k.execmem i .args = 0) (argv : Word) :
    Replaced k (k.placeArgs i argv) i (k.execmem i .text) (k.execmem i .data) rest := by
  unfold Kernel.placeArgs
  split
  next => exact ⟨rfl, rfl, .inl hargs, rfl, rfl⟩
  next =>
    have hstart := sameElse_kheapStart k
    rcases h.kalloc (n := 256) (by decide) with ⟨_, heq⟩ | ⟨a, free', k', _, heq, hheap, hsame, _, hle⟩
    · simp only [heq, if_true]
      refine ⟨?_, ?_, .inl ?_, (congrArg Kernel.curr hstart :), (congrArg Kernel.stuck hstart :)⟩
      · rw [hstart.execmem_eq]
      · rw [hstart.execmem_eq]
      · rw [hstart.execmem_eq, hargs]
    · obtain ⟨hplaced, _⟩ := forall_mem_cons.mp hheap.placed
      simp only [heq, if_neg (payload_ne_zero hplaced)]
      refine ⟨?_, ?_, .inr ⟨a, ?_, hplaced, hle, ?_, ?_⟩, (congrArg Kernel.curr hsame :),
        (congrArg Kernel.stuck hsame :)⟩
      · rw [setExecmem_execmem, if_neg (by decide), hsame.execmem_eq]
      · rw [setExecmem_execmem, if_neg (by decide), hsame.execmem_eq]
      · rw [setExecmem_execmem, if_pos rfl]
      · exact Nat.le_trans (Nat.add_le_add_right (hheap.stop_le mem_cons_self) _) hheap.top
      · exact (pairwise_cons.mp hheap.apart).1

theorem replaceImage_replaced (hawake : (k.proc i).state ≠ .sleeping) (ho : Owned k i live rest)
    (h : Heap k free live) (tb db argv : Word) :
    Replaced k (k.replaceImage i tb db argv) i tb db rest := by
  obtain ⟨hs₁, harena, hexec, hheap⟩ := syncBrk_kept i (Line.base hawake) (by decide : nproc < nproc + 1)
  have hb₁ := Kernel.syncBrk_bare i nproc i k
  unfold Kernel.replaceImage Kernel.vforkSyncBrk
  generalize Kernel.syncBrk i nproc i k = k₁ at hs₁ harena hexec hheap hb₁ ⊢
  obtain ⟨⟨free₂, h₂⟩, hs₂, hzero⟩ := kfreeExec_heap (ho.congr hexec hheap) (h.congr harena)
  have hb₂ := (Kernel.kfreeExec_bare k₁ i).trans hb₁
  generalize k₁.kfreeExec i = k₂ at h₂ hs₂ hzero hb₂ ⊢
  have hset : Heap ((k₂.setExecmem i .text tb).setExecmem i .data db) free₂ rest := h₂.congr rfl
  have hexec' : ∀ x, ((k₂.setExecmem i .text tb).setExecmem i .data db).execmem i x =
      if x = .data then db else if x = .text then tb else 0 := by
    intro x
    rw [setExecmem_execmem, setExecmem_execmem, hzero]
  have hr := placeArgs_replaced hset (hexec' .args) argv
  exact ⟨hr.text.trans (hexec' .text), hr.data.trans (hexec' .data), hr.area,
    hr.curr.trans (congrArg Kernel.curr hb₂ :), hr.stuck.trans (hs₂.trans hs₁)⟩

end

/-! ## Blocks for the image -/

/-- The arena has room for both segments. -/
def HasRoom (free : List Block) (im : Kimg) : Prop :=
  ((firstFit 0x200 (Kernel.blockSize im.textlen).toNat free).bind fun r =>
    firstFit 0x200 (Kernel.blockSize im.datalen).toNat r.2).isSome = true

/-- Block `b` has `n` bytes for its user, and was free. -/
structure Block.Serves (b : Block) (n : Nat) (free : List Block) : Prop where
  placed : Placed b
  size : n + 0x100 ≤ b.size
  free : ∀ x, b.Has x → Covers free x

section

variable {k k₁ k₂ k' : Kernel} {i : Slot} {n t d : Word} {free free₁ free₂ live : List Block}
  {b : Block}

/-- Both blocks were free, and giving them back restores the arena. -/
structure Grants (k : Kernel) (free live : List Block) (t d : Word) (k₂ : Kernel)
    (bt bd : Block) : Prop where
  text : Block.Serves bt t.toNat free
  data : Block.Serves bd d.toNat free
  apart : bt.Apart bd
  heap : ∃ free', Heap k₂ free' (bd :: bt :: live)
  same : SameElse k k₂
  back : Heap ((k₂.kfree (payload bt)).kfree (payload bd)) free live
  backSame : SameElse k ((k₂.kfree (payload bt)).kfree (payload bd))

/-- The two requests of `exec`: blocks for both, or nothing is lost. -/
theorem kalloc_both (h : Heap k free live) (ht : t.toNat ≤ 2 ^ 32 - 0x200)
    (hd : d.toNat ≤ 2 ^ 32 - 0x200) :
    (∃ bt bd free₁ r k₁ k₂, firstFit 0x200 (Kernel.blockSize t).toNat free = some (bt, free₁) ∧
      firstFit 0x200 (Kernel.blockSize d).toNat free₁ = some r ∧
      k.kalloc t = (k₁, payload bt) ∧ k₁.kalloc d = (k₂, payload bd) ∧
      Grants k free live t d k₂ bt bd) ∨
    (((firstFit 0x200 (Kernel.blockSize t).toNat free).bind fun r =>
        firstFit 0x200 (Kernel.blockSize d).toNat r.2) = none ∧
      ∃ k₁ k₂ tb db, k.kalloc t = (k₁, tb) ∧ k₁.kalloc d = (k₂, db) ∧ (tb = 0 ∨ db = 0) ∧
        Heap ((k₂.kfree tb).kfree db) free live ∧ SameElse k ((k₂.kfree tb).kfree db)) := by
  rcases h.kalloc ht with ⟨hnone, heq⟩ | ⟨bt, free₁, k₁, hfit, heq, h₁, hsame₁, htake₁, hle₁⟩
  · right
    refine ⟨by rw [hnone]; rfl, ?_⟩
    have hsame := sameElse_kheapStart k
    rcases h.start.kalloc hd with ⟨_, heq'⟩ | ⟨bd, free₂, k₂, _, heq', h₂, hsame₂, htake₂, _⟩
    · refine ⟨_, _, 0, 0, heq, heq', .inl rfl, ?_⟩
      rw [kheapStart_of_init (kheapInit_kheapStart k)]
      exact ⟨h.start, hsame⟩
    · refine ⟨_, k₂, 0, payload bd, heq, heq', .inl rfl, ?_⟩
      obtain ⟨hfree, hback⟩ := h₂.kfree
      rw [release_takes h.list.spaced htake₂] at hfree
      exact ⟨hfree, (hsame.trans hsame₂).trans hback⟩
  · rcases h₁.kalloc hd with ⟨hnone, heq'⟩ | ⟨bd, free₂, k₂, hfit', heq', h₂, hsame₂, htake₂, hle₂⟩
    · right
      refine ⟨by rw [hfit]; exact hnone, k₁, _, payload bt, 0, heq, heq', .inr rfl, ?_⟩
      obtain ⟨hfree, hback⟩ := h₁.start.kfree
      rw [release_takes h.list.spaced htake₁] at hfree
      exact ⟨hfree, (hsame₁.trans (sameElse_kheapStart k₁)).trans hback⟩
    · left
      obtain ⟨hfree₁, hback₁⟩ := (h₂.perm (List.Perm.swap bt bd live)).kfree
      obtain ⟨hfree₂, hback₂⟩ := hfree₁.kfree
      rw [release_release h.list.spaced htake₁ htake₂] at hfree₂
      obtain ⟨hpd, hpt⟩ := forall_mem_cons.mp h₂.placed
      refine ⟨bt, bd, free₁, _, k₁, k₂, hfit, hfit', heq, heq', ?_⟩
      refine ⟨⟨hpt bt mem_cons_self, hle₁, fun x hx => (htake₁.covers x).mpr (.inl hx)⟩,
        ⟨hpd, hle₂, fun x hx => (htake₁.covers x).mpr (.inr ((htake₂.covers x).mpr (.inl hx)))⟩,
        ?_, ⟨free₂, h₂⟩, hsame₁.trans hsame₂, hfree₂, ((hsame₁.trans hsame₂).trans hback₁).trans hback₂⟩
      exact ((pairwise_cons.mp h₂.apart).1 bt mem_cons_self).symm

end

/-! ## The parts of the file -/

/-- The file has both segments in full. -/
def HasSegments (file : List Byte) (im : Kimg) : Prop :=
  52 + im.textlen.toNat + im.datalen.toNat ≤ file.length

/-- The file has all that its header lists. -/
def Complete (file : List Byte) (im : Kimg) : Prop :=
  52 + im.textlen.toNat + im.datalen.toNat + 4 * im.nreloc.toNat ≤ file.length

section

variable {file : List Byte} {off n : Word} {im : Kimg} {tb db : Word} {m m' : Memory}

/-- A read from within the file is full if the file goes that far. -/
theorem length_readi (hfile : file.length < 2 ^ 32) (hoff : off.toNat ≤ file.length) :
    (readi file off n).length ≤ n.toNat ∧
      ((readi file off n).length = n.toNat ↔ off.toNat + n.toNat ≤ file.length) := by
  rcases lt_or_ge file.length (off.toNat + n.toNat) with h | h
  · have hsize : (BitVec.ofNat 32 file.length).toNat = file.length := by
      rw [toNat_ofNat, mod_eq_of_lt hfile]
    have hlt : (readi file off n).length < n.toNat := by
      simp only [readi, lt_def, toNat_add, hsize]
      split
      next => exact (show 0 < n.toNat by omega)
      next =>
        rw [if_pos (by omega), BitVec.toNat_sub_of_le (by rwa [le_def, hsize]),
          Dmx.length_slice (by omega)]
        omega
    exact ⟨Nat.le_of_lt hlt, iff_of_false (Nat.ne_of_lt hlt) (Nat.not_le.mpr h)⟩
  · rw [readi_eq_slice hfile h, Dmx.length_slice h]
    exact ⟨le_refl _, iff_of_true rfl h⟩

theorem length_of_readHeader (hfile : file.length < 2 ^ 32) (h : readHeader file = some im) :
    52 ≤ file.length := by
  unfold readHeader at h
  simp only [] at h
  split at h
  · cases h
  next hnot =>
    have hlen : (readi file 0 52).length = (52 : Word).toNat := Decidable.not_not.mp (not_or.mp hnot).1
    have := (length_readi hfile (zero_le _)).2.mp hlen
    simpa using this

theorem toNat_dataOff (hfile : file.length < 2 ^ 32) (hle : 52 + im.textlen.toNat ≤ file.length) :
    ((52 : Word) + im.textlen).toNat = 52 + im.textlen.toNat :=
  toNat_add_of_lt (show 52 + im.textlen.toNat < 2 ^ 32 by omega)

theorem put_apart {a x : Word} {bs : List Byte} (h : bs.length ≤ (x - a).toNat) :
    m.put a bs x = m x := if_neg (not_lt.mpr h)

/-- A file without its segments is found short, and nothing is written outside the blocks. -/
theorem loadFile_short (hfile : file.length < 2 ^ 32) (hhdr : 52 ≤ file.length)
    (hseg : ¬HasSegments file im) (tb db : Word) (m : Memory) :
    ∃ m', loadFile file im tb db m = .short m' ∧
      ∀ x, im.textlen.toNat ≤ (x - tb).toNat → im.datalen.toNat ≤ (x - db).toNat → m' x = m x := by
  obtain ⟨htext, hfull⟩ := length_readi (n := im.textlen) hfile (show (52 : Word).toNat ≤ _ from hhdr)
  unfold loadFile
  simp only []
  split
  next hne =>
    exact ⟨_, rfl, fun x hx _ => put_apart (le_trans htext hx)⟩
  next hlen =>
    have hle : 52 + im.textlen.toNat ≤ file.length := hfull.mp (not_not.mp hlen)
    have hoff := toNat_dataOff hfile hle
    rw [← hoff] at hle
    obtain ⟨hdata, hfull'⟩ := length_readi (n := im.datalen) hfile hle
    rw [hoff] at hfull'
    rw [if_pos fun heq => hseg (hfull'.mp heq)]
    refine ⟨_, rfl, fun x hx hx' => ?_⟩
    rw [put_apart (le_trans hdata hx'), put_apart (le_trans htext hx)]

/-- With its segments there, what is left is the relocations. -/
theorem loadFile_segments (hfile : file.length < 2 ^ 32) (hseg : HasSegments file im) :
    loadFile file im tb db m = (relocLoop im tb db file im.nreloc.toNat im.nreloc
      (52 + im.textlen + im.datalen) ((m.put tb (slice file 52 im.textlen.toNat)).put db
        (slice file (52 + im.textlen.toNat) im.datalen.toNat))).elim .fault .done := by
  unfold HasSegments at hseg
  have hoff : ((52 : Word) + im.textlen).toNat = _ := toNat_dataOff hfile (by omega)
  have htext : readi file 52 im.textlen = slice file 52 im.textlen.toNat :=
    readi_eq_slice hfile (show 52 + im.textlen.toNat ≤ _ by omega)
  have hdata : readi file (52 + im.textlen) im.datalen =
      slice file (52 + im.textlen.toNat) im.datalen.toNat := by
    rw [readi_eq_slice hfile (by omega), hoff]
  unfold loadFile
  simp only []
  rw [htext, hdata, Dmx.length_slice (by omega), Dmx.length_slice (by omega), if_neg (not_not.mpr rfl),
    if_neg (not_not.mpr rfl)]
  cases relocLoop im tb db file im.nreloc.toNat im.nreloc (52 + im.textlen + im.datalen)
    ((m.put tb (slice file 52 im.textlen.toNat)).put db
      (slice file (52 + im.textlen.toNat) im.datalen.toNat)) <;> rfl

end

/-! ## The relocations of the file -/

/-- A relocation word, taken apart. -/
def unpack (r : Word) : Dmx.Reloc where
  seg := if r &&& 0x80000000 ≠ 0 then 1 else 0
  off := r &&& 0x3FFFFFFF
  ref := if r &&& 0x40000000 ≠ 0 then 1 else 0

/-- The relocations that the header lists. -/
def relocs (file : List Byte) (im : Kimg) : List Dmx.Reloc :=
  (wordsAt file (52 + im.textlen.toNat + im.datalen.toNat) im.nreloc.toNat).map unpack

/-- Each of them names an aligned word of its segment. -/
def RelocsIn (file : List Byte) (im : Kimg) : Prop :=
  ∀ r ∈ relocs file im, r.off % 4 = 0 ∧
    r.off.toNat + 4 ≤ (if r.seg = 1 then im.datalen else im.textlen).toNat

section

variable {file : List Byte} {im : Kimg} {tb db : Word} {m m' : Memory}

theorem ite_and_bit (r : Word) (i : Nat) :
    (if (if r &&& BitVec.twoPow 32 i ≠ 0 then (1 : Word) else 0) = 1 then BitVec.twoPow 32 i else 0) =
      r &&& BitVec.twoPow 32 i := by
  rw [BitVec.and_twoPow]
  cases r.getLsbD i
  · simp
  · by_cases h : BitVec.twoPow 32 i = 0#32 <;> simp [h]

theorem pack_unpack (r : Word) : (unpack r).pack = r := by
  have hseg : (if (unpack r).seg = 1 then (0x80000000 : Word) else 0) = r &&& 0x80000000 :=
    ite_and_bit r 31
  have href : (if (unpack r).ref = 1 then (0x40000000 : Word) else 0) = r &&& 0x40000000 :=
    ite_and_bit r 30
  rw [Dmx.Reloc.pack, hseg, href]
  show (r &&& 0x3FFFFFFF &&& 0x3FFFFFFF) ||| (r &&& 0x80000000) ||| (r &&& 0x40000000) = r
  rw [BitVec.and_assoc, ← BitVec.and_or_distrib_left, ← BitVec.and_or_distrib_left]
  exact BitVec.and_allOnes

theorem unpack_off_lt (r : Word) : (unpack r).off.toNat < 2 ^ 30 := by
  show (r &&& 0x3FFFFFFF).toNat < 2 ^ 30
  exact lt_of_le_of_lt and_le_right (by decide)

theorem mem_relocs {r : Dmx.Reloc} (h : r ∈ relocs file im) :
    r.off.toNat < 2 ^ 30 ∧ (r.seg = 0 ∨ r.seg = 1) ∧ (r.ref = 0 ∨ r.ref = 1) := by
  obtain ⟨w, _, rfl⟩ := mem_map.mp h
  refine ⟨unpack_off_lt w, ?_, ?_⟩ <;> simp only [unpack] <;> split <;> decide

theorem map_pack_relocs : (relocs file im).map Dmx.Reloc.pack =
    wordsAt file (52 + im.textlen.toNat + im.datalen.toNat) im.nreloc.toNat := by
  rw [relocs, map_map]
  exact (map_congr_left fun r _ => pack_unpack r).trans (map_id _)

/-- Relocations of a file that are in their segments are done by `Load`, too. -/
theorem relocFits (hin : RelocsIn file im) :
    ∀ r ∈ relocs file im, Dmx.RelocFits [im.textlen.toNat, im.datalen.toNat] 2 r ∧ ¬r.Wraps := by
  intro r hr
  obtain ⟨hlt, hseg, href⟩ := mem_relocs hr
  obtain ⟨halign, hle⟩ := hin r hr
  have hsum : (r.off + 4).toNat = r.off.toNat + 4 :=
    toNat_add_of_lt (show r.off.toNat + 4 < 2 ^ 32 by omega)
  have hwraps : ¬r.Wraps := by
    intro hw
    rw [show r.off = 0xFFFFFFFC from hw] at hlt
    exact absurd hlt (by decide)
  have hlen : [im.textlen.toNat, im.datalen.toNat].getD r.seg.toNat 0 =
      (if r.seg = 1 then im.datalen else im.textlen).toNat := by
    rcases hseg with h | h <;> rw [h] <;> rfl
  refine ⟨⟨?_, ?_, congrArg BitVec.toNat halign, ?_, ?_⟩, hwraps⟩
  · show r.seg.toNat < 2
    rcases hseg with h | h <;> rw [h] <;> decide
  · rcases href with h | h <;> rw [h] <;> decide
  · rw [hlen]
    exact isLt _
  · rw [hlen, hsum]
    exact hle

/-- The bytes of the image, as they are when the relocation loop has come to its end. -/
structure Patched (file : List Byte) (im : Kimg) (tb db : Word) (c₀ c₁ : List Byte) : Prop where
  lengthText : c₀.length = im.textlen.toNat
  lengthData : c₁.length = im.datalen.toNat
  text : ∀ w, w % 4 = 0 → w + 4 ≤ im.textlen.toNat → le32 c₀ w = le32 file (52 + w) +
    Dmx.rebase [tb - im.textlink, db - im.datalink] (relocs file im) 0 w
  data : ∀ w, w % 4 = 0 → w + 4 ≤ im.datalen.toNat →
    le32 c₁ w = le32 file (52 + im.textlen.toNat + w) +
      Dmx.rebase [tb - im.textlink, db - im.datalink] (relocs file im) 1 w

/-- A complete file is loaded, and all its relocations are done. -/
theorem loadFile_complete (hfile : file.length < 2 ^ 32) (hc : Complete file im)
    (hin : RelocsIn file im) (hg : Granted tb db im.textlen.toNat im.datalen.toNat) (m : Memory) :
    ∃ m' c₀ c₁, loadFile file im tb db m = .done m' ∧ HoldsBoth m' tb db c₀ c₁ ∧
      Patched file im tb db c₀ c₁ := by
  unfold Complete at hc
  have hseg : HasSegments file im := le_trans (le_add_right _ _) hc
  generalize ht : slice file 52 im.textlen.toNat = t
  generalize hd : slice file (52 + im.textlen.toNat) im.datalen.toNat = d
  have htlen : t.length = im.textlen.toNat := by
    rw [← ht, Dmx.length_slice (by omega)]
  have hdlen : d.length = im.datalen.toNat := by
    rw [← hd, Dmx.length_slice (by omega)]
  have hg' : Granted tb db t.length d.length := by rwa [htlen, hdlen]
  have hboth : HoldsBoth ((m.put tb t).put db d) tb db t d :=
    ⟨(Holds.put m hg'.fitText).blit_apart hg'.fitText hg'.fitData hg'.apart _, Holds.put _ hg'.fitData⟩
  have hlens : [t, d].map List.length = [im.textlen.toNat, im.datalen.toNat] := by
    rw [← htlen, ← hdlen]
    rfl
  have hfits : ∀ r ∈ relocs file im, Dmx.RelocFits [im.textlen.toNat, im.datalen.toNat]
      [tb - im.textlink, db - im.datalink].length r := fun r hr => (relocFits hin r hr).1
  obtain ⟨bufs, hrel, hbufs, hwords⟩ :=
    Dmx.relocateAll_ok hfits hlens fun r hr => (relocFits hin r hr).2
  obtain ⟨m', c₀, c₁, hfold, rfl, h₀, h₁, hboth'⟩ := hboth.relocateAll hg'
    (fun r hr => (hin r hr).1) (fun r hr => (mem_relocs hr).1) hrel
  have hroff : ((52 : Word) + im.textlen + im.datalen).toNat =
      52 + im.textlen.toNat + im.datalen.toNat := by
    rw [toNat_add, toNat_dataOff hfile (by omega), mod_eq_of_lt (by omega)]
  refine ⟨m', c₀, c₁, ?_, hboth', h₀.trans htlen, h₁.trans hdlen, fun w hmod hle => ?_,
    fun w hmod hle => ?_⟩
  · rw [loadFile_segments hfile hseg, ht, hd, relocLoop_eq hfile (le_refl _) (by omega), hroff,
      ← map_pack_relocs, hfold]
    rfl
  · have := hwords 0 w hmod hle
    rwa [show [t, d].getD 0 [] = slice file 52 im.textlen.toNat from ht.symm, le32_slice hle] at this
  · have := hwords 1 w hmod hle
    rwa [show [t, d].getD 1 [] = slice file (52 + im.textlen.toNat) im.datalen.toNat from hd.symm,
      le32_slice hle] at this

end

/-! ## The image in its blocks -/

/-- The offsets of the words that the kernel sets in the data segment. -/
def presets (im : Kimg) : List Nat :=
  [im.sysoff.toNat, im.dispoff.toNat, im.dispoff.toNat - 0x54, im.dispoff.toNat - 0x50]

/-- They are words of the data segment. -/
structure PresetsIn (im : Kimg) : Prop where
  sysAlign : im.sysoff % 4 = 0
  sysEnd : im.sysoff.toNat + 4 ≤ im.datalen.toNat
  dispAlign : im.dispoff % 4 = 0
  regs : 0x54 ≤ im.dispoff.toNat
  dispEnd : im.dispoff.toNat + 4 ≤ im.datalen.toNat

/-- The words of `c` are those of `b`, but for the ones at `offs`. -/
structure Keeps (offs : List Nat) (b c : List Byte) : Prop where
  length : c.length = b.length
  word : ∀ w, w % 4 = 0 → w + 4 ≤ b.length → w ∉ offs → le32 c w = le32 b w

section

variable {m m' : Memory} {tb db area av v off : Word} {b₀ b₁ b₂ : List Byte} {im : Kimg}
  {k k₂ : Kernel} {free live rest : List Block} {t d : Word} {bt bd b : Block} {n : Nat}

theorem Keeps.cons {o : Nat} {offs : List Nat} (h : Keeps [o] b₀ b₁) (h' : Keeps offs b₁ b₂) :
    Keeps (o :: offs) b₀ b₂ := by
  refine ⟨h'.length.trans h.length, fun w hmod hle hnot => ?_⟩
  rw [mem_cons, not_or] at hnot
  rw [h'.word w hmod (h.length.symm ▸ hle) hnot.2, h.word w hmod hle (mt mem_singleton.mp hnot.1)]

/-- Setting one word of the data segment. -/
theorem HoldsBoth.set (h : HoldsBoth m tb db b₀ b₁) (hg : Granted tb db b₀.length b₁.length)
    (halign : off % 4 = 0) (hle : off.toNat + 4 ≤ b₁.length) (v : Word) :
    ∃ m' c, m.st (db + off) v = some m' ∧ HoldsBoth m' tb db b₀ c ∧ Keeps [off.toNat] b₁ c := by
  obtain ⟨m', hst, hboth⟩ := h.st_data hg halign hle v
  refine ⟨m', _, hst, hboth, Dmx.length_put32 _ _ _, fun w hmod hw hnot => ?_⟩
  have hmod' : off.toNat % 4 = 0 := congrArg BitVec.toNat halign
  have hne : w ≠ off.toNat := mt mem_singleton.mpr hnot
  exact Dmx.le32_put32_apart _ _ (by omega) (by omega)

theorem toNat_sub_const {x c : Word} (h : c.toNat ≤ x.toNat) : (x - c).toNat = x.toNat - c.toNat :=
  BitVec.toNat_sub_of_le (le_def.mpr h)

theorem mod_four_of_toNat {x : Word} (h : x.toNat % 4 = 0) : x % 4 = 0 :=
  BitVec.eq_of_toNat_eq h

theorem preset_keeps (hp : PresetsIn im) (h : HoldsBoth m tb db b₀ b₁)
    (hg : Granted tb db b₀.length b₁.length) (hlen : b₁.length = im.datalen.toNat)
    (sysentry argc argv : Word) :
    ∃ m' c, preset im tb db sysentry argc argv m = some m' ∧ HoldsBoth m' tb db b₀ c ∧
      Keeps (presets im) b₁ c := by
  obtain ⟨hsys, hsysEnd, hdisp, hregs, hdispEnd⟩ := hp
  have hmod : im.dispoff.toNat % 4 = 0 := congrArg BitVec.toNat hdisp
  have hr₀ : (im.dispoff - 0x54).toNat = im.dispoff.toNat - 0x54 := toNat_sub_const hregs
  have hr₁ : (im.dispoff - 0x50).toNat = im.dispoff.toNat - 0x50 :=
    toNat_sub_const (show 0x50 ≤ im.dispoff.toNat by omega)
  have hbase : db + im.dispoff - 0x54 = db + (im.dispoff - 0x54) := by
    rw [BitVec.sub_eq_add_neg, BitVec.add_assoc, ← BitVec.sub_eq_add_neg]
  have hnext : db + (im.dispoff - 0x54) + 4 = db + (im.dispoff - 0x50) := by
    rw [BitVec.add_assoc, BitVec.sub_eq_add_neg, BitVec.add_assoc, BitVec.sub_eq_add_neg]
    rfl
  have ha₀ : (im.dispoff - 0x54) % 4 = 0 := mod_four_of_toNat (by omega)
  have ha₁ : (im.dispoff - 0x50) % 4 = 0 := mod_four_of_toNat (by omega)
  obtain ⟨m₁, c₁, hst₁, h₁, k₁⟩ := h.set hg hsys (by omega) sysentry
  rw [← k₁.length] at hg hlen
  obtain ⟨m₂, c₂, hst₂, h₂, k₂⟩ := h₁.set hg hdisp (by omega) (tb + im.thunkoff)
  rw [← k₂.length] at hg hlen
  obtain ⟨m₃, c₃, hst₃, h₃, k₃⟩ := h₂.set hg ha₀ (by omega) argc
  rw [← k₃.length] at hg hlen
  obtain ⟨m₄, c₄, hst₄, h₄, k₄⟩ := h₃.set hg ha₁ (by omega) argv
  rw [hr₀] at k₃
  rw [hr₁] at k₄
  refine ⟨m₄, c₄, ?_, h₄, k₁.cons (k₂.cons (k₃.cons k₄))⟩
  simp only [preset, hbase, hnext, hst₁, hst₂, hst₃, hst₄, Option.bind_eq_bind, Option.bind_some]

theorem toNat_payload (hb : Placed b) : (payload b).toNat = b.start + 0x100 := by
  have hunit := hb.unit
  have hstop := hb.stop
  simp only [Block.stop] at hstop
  exact mod_eq_of_lt (by omega)

theorem payload_mod_four (hb : Placed b) : payload b % 4 = 0 := by
  have halign := hb.align
  exact mod_four_of_toNat (by rw [toNat_payload hb]; omega)

theorem Grants.granted (h : Grants k free live t d k₂ bt bd) :
    Granted (payload bt) (payload bd) t.toNat d.toNat := by
  obtain ⟨⟨htext, htsize, _⟩, ⟨hdata, hdsize, _⟩, hapart⟩ := h
  have htstop := htext.stop
  have hdstop := hdata.stop
  simp only [Block.stop] at htstop hdstop
  refine ⟨payload_mod_four htext, payload_mod_four hdata, ?_, ?_, ?_⟩
  · rw [Fits, toNat_payload htext]
    omega
  · rw [Fits, toNat_payload hdata]
    omega
  · rw [Apart, toNat_payload htext, toNat_payload hdata]
    simp only [Block.Apart, Block.stop] at hapart
    omega

/-- Filling the argument area leaves what is in the other blocks alone. -/
theorem passArgs_apart (harea : AreaOk area rest) (hav : av % 4 = 0) (m : Memory) :
    ∃ m' argc argv, passArgs m av area = some (m', argc, argv) ∧
      ∀ b ∈ rest, Placed b → ∀ bs, bs.length + 0x100 ≤ b.size → Holds m (payload b) bs →
        Holds m' (payload b) bs := by
  rcases harea with rfl | ⟨a, rfl, hplaced, hsize, htop, hapart⟩
  · exact ⟨m, 0, 0, rfl, fun _ _ _ _ _ h => h⟩
  · have ha := toNat_payload hplaced
    simp only [Block.stop] at htop
    obtain ⟨m', argc, argv, heq, hw⟩ :=
      passArgs_within (by omega) (payload_mod_four hplaced) hav m
    refine ⟨m', argc, argv, heq, fun b hb hpb bs hlen h j hj => ?_⟩
    have hstop := hpb.stop
    have hab := hapart b hb
    simp only [Block.Apart, Block.stop] at hstop hab
    have hfit : Fits (payload b) bs.length := by
      rw [Fits, toNat_payload hpb]
      omega
    have hx := toNat_add_of_fits hfit hj
    rw [toNat_payload hpb] at hx
    rw [← h j hj]
    apply hw
    rw [toNat_sub]
    omega

end

/-! ## All or nothing -/

/-- Nothing is lost: the arena is divided as before, and what has been written is in
    blocks that are free. -/
structure Refused (k : Kernel) (m : Memory) (free live : List Block) (k' : Kernel) (m' : Memory) :
    Prop where
  heap : Heap k' free live
  same : SameElse k k'
  memory : ∀ x, ¬Covers free x.toNat → m' x = m x

/-- The image is there as a whole: the file has all of it, and each word is that of the
    file with what its relocations add. -/
structure Started (k : Kernel) (file : List Byte) (im : Kimg) (k' : Kernel) (m' : Memory)
    (l : Landmarks) : Prop where
  complete : Complete file im
  relocsIn : RelocsIn file im
  presetsIn : PresetsIn im
  stuck : k'.stuck = k.stuck
  landmarks : l = landmarks im (k'.execmem k.curr .text) (k'.execmem k.curr .data)
  text : ∀ w, w % 4 = 0 → w + 4 ≤ im.textlen.toNat →
    m'.ld (k'.execmem k.curr .text + BitVec.ofNat 32 w) = le32 file (52 + w) +
      Dmx.rebase [k'.execmem k.curr .text - im.textlink, k'.execmem k.curr .data - im.datalink]
        (relocs file im) 0 w
  data : ∀ w, w % 4 = 0 → w + 4 ≤ im.datalen.toNat → w ∉ presets im →
    m'.ld (k'.execmem k.curr .data + BitVec.ofNat 32 w) = le32 file (52 + im.textlen.toNat + w) +
      Dmx.rebase [k'.execmem k.curr .text - im.textlink, k'.execmem k.curr .data - im.datalink]
        (relocs file im) 1 w

/-- `SYS_exec` of the file has no effect, or starts the image in full. -/
def AllOrNothing (k : Kernel) (m : Memory) (file : List Byte) (argv sysentry : Word)
    (free live : List Block) : Prop :=
  match execFile k m file argv sysentry with
  | .refused k' m' => Refused k m free live k' m'
  | .started k' m' l => ∃ im, readHeader file = some im ∧ Started k file im k' m' l
  | .fault => False

/-- The lengths that the header states do not wrap when `kalloc` rounds them up. -/
structure LengthsOk (im : Kimg) : Prop where
  text : im.textlen.toNat ≤ 2 ^ 32 - 0x200
  data : im.datalen.toNat ≤ 2 ^ 32 - 0x200

section

variable {k k₁ k₂ : Kernel} {m m' : Memory} {file : List Byte} {argv sysentry tb db : Word}
  {im : Kimg} {free live rest : List Block} {bt bd : Block}

/-- What `execFile` does once both blocks are there. -/
theorem execFile_granted (hhdr : readHeader file = some im) (ht : k.kalloc im.textlen = (k₁, tb))
    (hd : k₁.kalloc im.datalen = (k₂, db)) (htb : tb ≠ 0) (hdb : db ≠ 0) :
    execFile k m file argv sysentry =
      match loadFile file im tb db m with
      | .short m => .refused ((k₂.kfree tb).kfree db) m
      | .fault => .fault
      | .done m =>
        let k := k₂.replaceImage k₂.curr tb db argv
        match (passArgs m argv (k.execmem k.curr .args)).bind fun (m, argc, argvdst) =>
            preset im tb db sysentry argc argvdst m with
        | none => .fault
        | some m => .started k m (landmarks im tb db) := by
  unfold execFile
  rw [hhdr]
  dsimp only
  rw [ht]
  rw [hd]
  exact if_neg (not_or.mpr ⟨htb, hdb⟩)

theorem le_toNat_sub {b : Block} {n : Nat} {x : Word} (hb : Placed b) (hsize : n + 0x100 ≤ b.size)
    (hnot : ¬b.Has x.toNat) : n ≤ (x - payload b).toNat := by
  have hstop := hb.stop
  have hpay := toNat_payload hb
  simp only [Block.Has, Block.stop] at hnot hstop
  rw [toNat_sub]
  omega

/-- What the blocks of the caller are once the two of the image are there, too. -/
theorem Owned.grants (ho : Owned k k.curr live rest) (hg : Grants k free live im.textlen im.datalen k₂ bt bd) :
    Owned k₂ k.curr (bd :: bt :: live) (bd :: bt :: rest) := by
  obtain ⟨text, data, args, heap, htext, hdata, hargs, hheap, hperm⟩ :=
    (ho.congr hg.same.execmem_eq hg.same.heapmem_eq).blocks
  refine ⟨text, data, args, heap, htext, hdata, hargs, hheap, ?_⟩
  have hmove (x : Block) (l₁ l₂ : List Block) : (x :: (l₁ ++ l₂)).Perm (l₁ ++ x :: l₂) :=
    perm_middle.symm
  simp only [← append_assoc] at hperm ⊢
  exact ((hperm.cons bt).trans (hmove ..) |>.cons bd).trans (hmove ..)

/-- With room for the image, both blocks are granted. -/
theorem grants_of_hasRoom (hlen : LengthsOk im) (h : Heap k free live) (hroom : HasRoom free im) :
    ∃ bt bd k₁ k₂, k.kalloc im.textlen = (k₁, payload bt) ∧ k₁.kalloc im.datalen = (k₂, payload bd) ∧
      Grants k free live im.textlen im.datalen k₂ bt bd := by
  rcases kalloc_both h hlen.text hlen.data with
    ⟨bt, bd, _, _, k₁, k₂, _, _, ht, hd, hg⟩ | ⟨hnone, _⟩
  · exact ⟨bt, bd, k₁, k₂, ht, hd, hg⟩
  · rw [HasRoom, hnone] at hroom
    cases hroom

section

variable (hhdr : readHeader file = some im) (hlen : LengthsOk im) (h : Heap k free live)
include hhdr hlen h

theorem execFile_noRoom (hroom : ¬HasRoom free im) (m : Memory) (argv sysentry : Word) :
    ∃ k', execFile k m file argv sysentry = .refused k' m ∧ Refused k m free live k' m := by
  rcases kalloc_both h hlen.text hlen.data with
    ⟨bt, bd, free₁, r, k₁, k₂, hfit, hfit', _⟩ | ⟨_, k₁, k₂, tb, db, ht, hd, hzero, hback, hsame⟩
  · refine absurd ?_ hroom
    rw [HasRoom, hfit, Option.bind_some, hfit']
    rfl
  · refine ⟨_, ?_, hback, hsame, fun _ _ => rfl⟩
    simp only [execFile, hhdr, ht, hd, if_pos hzero]

variable (hfile : file.length < 2 ^ 32) (hroom : HasRoom free im)
include hfile hroom

theorem execFile_short (hseg : ¬HasSegments file im) (m : Memory) (argv sysentry : Word) :
    ∃ k' m', execFile k m file argv sysentry = .refused k' m' ∧ Refused k m free live k' m' := by
  obtain ⟨bt, bd, k₁, k₂, ht, hd, hg⟩ := grants_of_hasRoom hlen h hroom
  obtain ⟨m', hload, hframe⟩ := loadFile_short hfile (length_of_readHeader hfile hhdr) hseg
    (payload bt) (payload bd) m
  refine ⟨_, m', ?_, hg.back, hg.backSame, fun x hx => hframe x ?_ ?_⟩
  · rw [execFile_granted hhdr ht hd (payload_ne_zero hg.text.placed) (payload_ne_zero hg.data.placed),
      hload]
  · exact le_toNat_sub hg.text.placed hg.text.size fun hhas => hx (hg.text.free _ hhas)
  · exact le_toNat_sub hg.data.placed hg.data.size fun hhas => hx (hg.data.free _ hhas)

/-- A file with its segments is not refused if there is room for them. -/
theorem execFile_segments (hseg : HasSegments file im) (k' : Kernel) (m' : Memory) :
    execFile k m file argv sysentry ≠ .refused k' m' := by
  obtain ⟨bt, bd, k₁, k₂, ht, hd, hg⟩ := grants_of_hasRoom hlen h hroom
  rw [execFile_granted hhdr ht hd (payload_ne_zero hg.text.placed) (payload_ne_zero hg.data.placed),
    loadFile_segments hfile hseg]
  cases relocLoop im (payload bt) (payload bd) file im.nreloc.toNat im.nreloc
    (52 + im.textlen + im.datalen) ((m.put (payload bt) (slice file 52 im.textlen.toNat)).put
      (payload bd) (slice file (52 + im.textlen.toNat) im.datalen.toNat)) with
  | none => nofun
  | some m₁ =>
    dsimp only [Option.elim]
    split <;> nofun

/-- A complete file is started. -/
theorem execFile_complete (ho : Owned k k.curr live rest)
    (hawake : (k.proc k.curr).state ≠ .sleeping) (hargv : argv % 4 = 0) (hc : Complete file im)
    (hin : RelocsIn file im) (hpre : PresetsIn im) (m : Memory) (sysentry : Word) :
    ∃ k' m' l, execFile k m file argv sysentry = .started k' m' l ∧ Started k file im k' m' l := by
  obtain ⟨bt, bd, k₁, k₂, ht, hd, hg⟩ := grants_of_hasRoom hlen h hroom
  obtain ⟨free', hheap⟩ := hg.heap
  have hcurr : k₂.curr = k.curr := (congrArg Kernel.curr hg.same :)
  have hproc : k₂.proc = k.proc := (congrArg Kernel.proc hg.same :)
  obtain ⟨m₁, c₀, c₁, hload, hboth, hpatched⟩ := loadFile_complete hfile hc hin hg.granted m
  have hr : Replaced k₂ (k₂.replaceImage k.curr (payload bt) (payload bd) argv) k.curr
      (payload bt) (payload bd) (bd :: bt :: rest) :=
    replaceImage_replaced (by rwa [hproc]) (ho.grants hg) hheap _ _ _
  rw [execFile_granted hhdr ht hd (payload_ne_zero hg.text.placed) (payload_ne_zero hg.data.placed),
    hload, hcurr]
  dsimp only
  generalize k₂.replaceImage k.curr (payload bt) (payload bd) argv = k' at hr ⊢
  rw [hr.curr, hcurr]
  obtain ⟨m₂, argc, argvdst, hpass, hkeep⟩ := passArgs_apart hr.area hargv m₁
  have hsize₀ : c₀.length + 0x100 ≤ bt.size := hpatched.lengthText ▸ hg.text.size
  have hsize₁ : c₁.length + 0x100 ≤ bd.size := hpatched.lengthData ▸ hg.data.size
  have hboth₂ : HoldsBoth m₂ (payload bt) (payload bd) c₀ c₁ :=
    ⟨hkeep bt (mem_cons_of_mem _ mem_cons_self) hg.text.placed c₀ hsize₀ hboth.text,
      hkeep bd mem_cons_self hg.data.placed c₁ hsize₁ hboth.data⟩
  have hgr := hg.granted
  rw [← hpatched.lengthText, ← hpatched.lengthData] at hgr
  obtain ⟨m₃, c₂, hpreset, hboth₃, hkeeps⟩ :=
    preset_keeps hpre hboth₂ hgr hpatched.lengthData sysentry argc argvdst
  refine ⟨k', m₃, landmarks im (payload bt) (payload bd), ?_, hc, hin, hpre,
    hr.stuck.trans (congrArg Kernel.stuck hg.same :), ?_, fun w hmod hle => ?_, fun w hmod hle hnot => ?_⟩
  · rw [hpass, Option.bind_some]
    rw [hpreset]
  · rw [hr.text, hr.data]
  · rw [hr.text, hr.data, hboth₃.text.ld_eq (by rwa [hpatched.lengthText])]
    exact hpatched.text w hmod hle
  · have hle' : w + 4 ≤ c₁.length := by rwa [hpatched.lengthData]
    rw [hr.text, hr.data, hboth₃.data.ld_eq (by rwa [hkeeps.length]), hkeeps.word w hmod hle' hnot]
    exact hpatched.data w hmod hle

/-- What is not in the file in full is started all the same. -/
theorem not_allOrNothing (hseg : HasSegments file im)
    (hnot : ¬(Complete file im ∧ RelocsIn file im ∧ PresetsIn im)) :
    ¬AllOrNothing k m file argv sysentry free live := by
  intro hall
  unfold AllOrNothing at hall
  split at hall
  next k' m' heq => exact execFile_segments hhdr hlen h hfile hroom hseg k' m' heq
  next =>
    obtain ⟨im', hhdr', hstarted⟩ := hall
    cases hhdr.symm.trans hhdr'
    exact hnot ⟨hstarted.complete, hstarted.relocsIn, hstarted.presetsIn⟩
  next => exact hall

end

/-- What `sysExec` goes by when it finds the file. -/
def program (file : List Byte) (im : Kimg) : Program :=
  .file im.textlen im.datalen (decide (52 + im.textlen.toNat + im.datalen.toNat ≤ file.length))

end

/-- A file of one word of text and 0x58 bytes of data. Its header lists one relocation. -/
def oneReloc (table : List Word) : List Byte :=
  Dmx.leBytes [Dmx.execMagic, 4, 0x58, 0x1000, 0x2000, 1, 0, 0, 0x54, 0x10, 0x20, 0x30, 0x40] ++
    Dmx.leBytes [0x2000] ++ List.replicate 0x58 0 ++ Dmx.leBytes table

def oneRelocHeader : Kimg := ⟨4, 0x58, 0x1000, 0x2000, 1, 0, 0, 0x54, 0x10, 0x20, 0x30, 0x40⟩

/-- A kernel with an arena of 64 KiB that nothing has been taken from. -/
def roomy : Kernel := { arena := 0x20040000, arenaEnd := 0x20050000 }

theorem heap_roomy : Heap roomy [⟨0x20040000, 0x10000⟩] [] :=
  (Tiled.untouched rfl (by decide) (by decide) (by decide)).heap (by decide)

theorem owned_roomy : Owned roomy roomy.curr [] [] := ⟨[], [], [], [], .none, .none, .none, .none, .nil⟩

theorem lengthsOk_oneReloc : LengthsOk oneRelocHeader := ⟨by decide, by decide⟩

theorem hasRoom_oneReloc : HasRoom [⟨0x20040000, 0x10000⟩] oneRelocHeader := by
  unfold HasRoom
  decide +kernel

/-- Whether the image is started, with this as its first word. -/
def ExecEnd.startsWith (v : Word) : ExecEnd → Bool
  | .started k m _ => m.ld (k.execmem k.curr .text) == v
  | _ => false

end DmaCpu.Xv6.Exec
