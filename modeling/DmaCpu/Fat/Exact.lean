-- SUMMARY: File reads are exact, after any history, exactly on the part of a volume that 32-bit offsets reach.
import DmaCpu.Lib.Run
import DmaCpu.Fat.Deliver

/-!
# Exact reads

Whatever has happened since the mount, the cache is right and every node remembers a
cluster of its own file. From such a state a read delivers, for the byte at offset `x`
of the volume, the byte at `x % 2 ^ 32`.
-/
namespace DmaCpu.Fat

open Function

open Blit (blit Mem Copied)

/-! ## The cache survives everything -/

/-- A computation that leaves the cache right, whatever it reads. -/
def Keeps {α : Type} (v : Volume) (x : StateM Cache α) : Prop :=
  ∀ c, CacheOk v c → CacheOk v (x c).2

def KeepsFs {α : Type} (v : Volume) (x : StateM Fs α) : Prop :=
  ∀ s, CacheOk v s.cache → CacheOk v (x s).2.cache

section

variable {α β : Type} {v : Volume} {x : StateM Cache α}

theorem keeps_pure (a : α) : Keeps v (pure a) := fun _ h => h

theorem keeps_bind {f : α → StateM Cache β} (hx : Keeps v x)
    (hf : ∀ a, Keeps v (f a)) : Keeps v (x >>= f) := fun c hc => hf _ _ (hx c hc)

theorem keepsFs_pure (a : α) : KeepsFs v (pure a) := fun _ h => h

theorem keepsFs_bind {x : StateM Fs α} {f : α → StateM Fs β} (hx : KeepsFs v x)
    (hf : ∀ a, KeepsFs v (f a)) : KeepsFs v (x >>= f) := fun c hc => hf _ _ (hx c hc)

theorem Keeps.cached (hx : Keeps v x) : KeepsFs v (cached x) := fun s hs =>
  hx s.cache hs

section

variable (v : Volume)

theorem keeps_sdsec (lba : Word) : Keeps v (sdsec v lba) := fun _ hc => hc.look lba

theorem keeps_rd8 (a : Word) : Keeps v (rd8 v a) := by
  unfold rd8
  split
  · exact keeps_bind (keeps_sdsec v _) fun _ => keeps_pure _
  · exact keeps_pure _

theorem keeps_fatNext (cl : Word) : Keeps v (fatNext v cl) := by
  have h16 (a : Word) : Keeps v (rd16 v a) :=
    keeps_bind (keeps_rd8 v a) fun _ => keeps_bind (keeps_rd8 v _) fun _ => keeps_pure _
  have h32 (a : Word) : Keeps v (rd32 v a) :=
    keeps_bind (h16 a) fun _ => keeps_bind (h16 _) fun _ => keeps_pure _
  exact keeps_bind (h32 _) fun _ => keeps_pure _

theorem keeps_spanLoop (want fuel span : Nat) (cl : Word) :
    Keeps v (spanLoop v want fuel span cl) := by
  induction fuel generalizing span cl with
  | zero => exact keeps_pure _
  | succ fuel ih =>
    rw [spanLoop]
    split
    · refine keeps_bind (keeps_fatNext v cl) fun nx => ?_
      split
      · exact keeps_pure _
      · exact ih _ _
    · exact keeps_pure _

theorem keeps_advanceLoop (fuel pos : Nat) (cl : Word) :
    Keeps v (advanceLoop v fuel pos cl) := by
  induction fuel generalizing pos cl with
  | zero => exact keeps_pure _
  | succ fuel ih =>
    rw [advanceLoop]
    split
    · exact keeps_bind (keeps_fatNext v cl) fun nx => ih _ nx
    · exact keeps_pure _

theorem keepsFs_sectorLoop (fuel : Nat) (voff d : Word) (left : Nat) :
    KeepsFs v (sectorLoop v fuel voff d left) := by
  induction fuel generalizing voff d left with
  | zero => exact keepsFs_pure _
  | succ fuel ih =>
    rw [sectorLoop]
    split
    · exact keepsFs_pure _
    · simp only
      split
      · exact keepsFs_bind (fun _ h => h) fun _ => ih _ _ _
      · exact keepsFs_bind (keeps_sdsec v _).cached fun _ => keepsFs_bind (fun _ h => h) fun _ =>
          ih _ _ _

theorem keepsFs_transfer (d a : Word) (take : Nat) : KeepsFs v (transfer v d a take) := by
  unfold transfer
  split
  · exact keepsFs_sectorLoop v _ _ _ _
  · intro s hs
    unfold kdmacpy
    split
    · exact hs
    · exact hs

theorem keepsFs_readRun (runs : Runs) (dst : Word) (n : Nat) (c : Cursor) :
    KeepsFs v (readRun v runs dst n c) := by
  have hrun (lba d : Word) (k : Nat) : KeepsFs v (ksdReadRun v runs lba d k) := by
    intro s hs
    unfold ksdReadRun
    split
    · exact hs
    · exact hs
  unfold readRun
  simp only
  split
  · refine keepsFs_bind (keeps_spanLoop v _ _ _ _).cached fun found => ?_
    split
    · refine keepsFs_bind (hrun _ _ _) fun ok => ?_
      split
      · exact keepsFs_bind (keeps_advanceLoop v _ _ _).cached fun _ => keepsFs_pure _
      · exact keepsFs_pure _
    · exact keepsFs_pure _
  · exact keepsFs_pure _

theorem keepsFs_readLoop (runs : Runs) (dst : Word) (n fuel : Nat) (c : Cursor) :
    KeepsFs v (readLoop v runs dst n fuel c) := by
  induction fuel generalizing c with
  | zero => exact keepsFs_pure _
  | succ fuel ih =>
    rw [readLoop]
    split
    · refine keepsFs_bind (keepsFs_readRun v runs dst n c) fun o => ?_
      cases o with
      | some c' => exact ih c'
      | none =>
        exact keepsFs_bind (keepsFs_bind (keepsFs_transfer v _ _ _) fun _ =>
          keepsFs_bind (keeps_fatNext v _).cached fun _ => keepsFs_pure _) fun c' => ih c'
    · exact keepsFs_pure _

end

theorem KeepsFs.wp {x : StateM Fs α} (h : KeepsFs v x) {m : Mem 32 Byte}
    {Q : α → Mem 32 Byte → Prop} (hQ : ∀ a m', Q a m') : Wp v m x Q := fun s hc _ =>
  ⟨h s hc, hQ _ _⟩

end

/-! ## Nodes -/

/-- A node of a file that the volume holds; the position it remembers is one of the
    file's clusters. -/
structure MetaOk (v : Volume) (fm : Meta) : Prop where
  file : v.File fm.clus fm.size.toNat
  seq : live fm.seqcl → fm.seqcl = v.chain fm.clus fm.seqci.toNat

section

variable {v : Volume} {fm : Meta} {off n dst : Word} {runs : Runs} {m : Mem 32 Byte}

/-- The walk from the remembered position ends where the one from the start does. -/
theorem MetaOk.reads_skip (hv : v.WellFormed) (h : MetaOk v fm) (hoff : off.toNat < fm.size.toNat) :
    Reads v (if live fm.seqcl ∧ fm.seqci ≤ off / v.clussz then
        skipLoop v (off / v.clussz - fm.seqci).toNat fm.seqcl
      else skipLoop v (off / v.clussz).toNat fm.clus)
      (v.chain fm.clus (off.toNat / v.cluster)) := by
  have hci : (off / v.clussz).toNat = off.toNat / v.cluster := by
    rw [BitVec.toNat_udiv, hv.toNat_clussz]
  have hholds (k : Nat) (hk : k < off.toNat / v.cluster) : v.Holds (v.chain fm.clus k) := by
    apply h.file
    have hle : k * v.cluster ≤ off.toNat / v.cluster * v.cluster := Nat.mul_le_mul_right _ hk.le
    exact Nat.lt_of_le_of_lt (hle.trans (Nat.div_mul_le_self _ _)) hoff
  split
  next hresume =>
    obtain ⟨hlive, hle⟩ := hresume
    have hnat : fm.seqci.toNat ≤ off.toNat / v.cluster := hci ▸ hle
    have hskip : (off / v.clussz - fm.seqci).toNat = off.toNat / v.cluster - fm.seqci.toNat := by
      rw [BitVec.toNat_sub_of_le hle, hci]
    have hrest (k : Nat) (hk : k < off.toNat / v.cluster - fm.seqci.toNat) :
        v.Holds (v.chain fm.seqcl k) := by
      rw [h.seq hlive, ← chain_add]
      exact hholds _ (by omega)
    have hreads := reads_skipLoop hv hrest
    rw [h.seq hlive, ← chain_add, Nat.add_sub_cancel' hnat] at hreads
    rw [hskip, h.seq hlive]
    exact hreads
  next =>
    rw [hci]
    exact reads_skipLoop hv hholds

/-- The number of bytes of the file that a read asks for. -/
def asked (fm : Meta) (off n : Word) : Nat := min n.toNat (fm.size.toNat - off.toNat)

theorem toNat_clip (hlt : off.toNat < fm.size.toNat) (hsum : off.toNat + n.toNat < 2 ^ 32) :
    (if fm.size < off + n then fm.size - off else n).toNat = asked fm off n := by
  have hadd : (off + n).toNat = off.toNat + n.toNat := by
    rw [BitVec.toNat_add, Nat.mod_eq_of_lt hsum]
  rw [asked]
  split
  next h =>
    have hnat : fm.size.toNat < (off + n).toNat := h
    rw [BitVec.toNat_sub_of_le (by exact hlt.le)]
    omega
  next h =>
    have hnat : ¬fm.size.toNat < (off + n).toNat := h
    omega

/-- A read leaves a node that is right again. -/
theorem MetaOk.wp_keeps (hv : v.WellFormed) (h : MetaOk v fm) (runs : Runs) (dst off n : Word) :
    Wp v m (fatReadi v runs fm dst off n) fun r _ =>
      MetaOk v r.2 ∧ r.2.clus = fm.clus ∧ r.2.size = fm.size := by
  unfold fatReadi
  split
  next => exact wp_pure ⟨h, rfl, rfl⟩
  next hlt =>
    apply wp_bind
    apply wp_cached (h.reads_skip hv (Nat.lt_of_not_le hlt))
    apply wp_bind
    refine (keepsFs_readLoop v runs dst _ _ _).wp fun done m' => wp_pure ⟨⟨h.file, fun _ => ?_⟩, rfl, rfl⟩
    rw [BitVec.toNat_udiv, hv.toNat_clussz]

/-- What a read returns, and what it delivers. -/
theorem MetaOk.wp_fatReadi (hv : v.WellFormed) (h : MetaOk v fm)
    (hsum : off.toNat + n.toNat < 2 ^ 32) (dst : Word) {good : Prop}
    (hgood : good → (1024 ≤ asked fm off n → ∀ k, runs k ≠ none) ∨
      ∀ i < asked fm off n, v.fileOffset fm.clus (off.toNat + i) < 2 ^ 32) :
    Wp v m (fatReadi v runs fm dst off n) fun r m' =>
      r.1 = (BitVec.ofNat 32 (asked fm off n)).toInt ∧
        (good → m' = blit m dst (asked fm off n) (Request.taken v fm.clus off.toNat)) := by
  unfold fatReadi
  split
  next hle =>
    have hzero : asked fm off n = 0 := by
      have hnat : fm.size.toNat ≤ off.toNat := hle
      rw [asked]
      omega
    rw [hzero]
    exact wp_pure ⟨rfl, fun _ => Copied.start.eq_blit⟩
  next hlt =>
    have hoff : off.toNat < fm.size.toNat := Nat.lt_of_not_le hlt
    have hN : asked fm off n ≤ n.toNat ∧ asked fm off n ≤ fm.size.toNat - off.toNat :=
      ⟨Nat.min_le_left _ _, Nat.min_le_right _ _⟩
    have r : Request v fm.clus fm.size.toNat off.toNat (asked fm off n) :=
      ⟨hv, h.file, by omega, by omega⟩
    apply wp_bind
    apply wp_cached (h.reads_skip hv hoff)
    apply wp_bind
    rw [toNat_clip hoff hsum]
    have hstart : Sofar v fm.clus off.toNat (asked fm off n) good dst m
        (0, (off % v.clussz).toNat, v.chain fm.clus (off.toNat / v.cluster)) m := by
      refine ⟨⟨Nat.zero_le _, fun _ => ?_, fun _ => rfl⟩, fun _ => .start⟩
      rw [BitVec.toNat_umod, hv.toNat_clussz]
      rfl
    refine wp_mono (r.wp_readLoop hgood (Nat.le_add_left _ _) hstart) fun done m' hdone => ?_
    obtain ⟨rfl, hcopied⟩ := hdone
    exact wp_pure ⟨rfl, fun hg => (hcopied hg).eq_blit⟩

end

/-! ## Histories -/

/-- The directory entries of the volume name files that it holds. -/
def Volume.Names (v : Volume) (_ : State) : Event → Prop
  | .getnode clus size isdir _ => isdir = false → v.File clus size.toNat
  | _ => True

/-- What can happen on a mounted volume. -/
def History (v : Volume) (runs : Runs) (s₀ s : State) : Prop :=
  s₀.Mounted ∧ Run.Reaches (step v runs) v.Names s₀ s

structure Inv (v : Volume) (s : State) : Prop where
  cache : CacheOk v s.fs.cache
  nodes : ∀ i, 0 < (s.node i).ref → (s.node i).isdir = false → MetaOk v (s.node i).info

namespace Inv

variable {v : Volume} {s : State} {runs : Runs}

theorem mounted (h : s.Mounted) : Inv v s where
  cache i hi := absurd (h.empty i) hi
  nodes i hi := absurd hi (by rw [h.unused i]; exact Nat.lt_irrefl 0)

theorem setNode (h : Inv v s) (i : Nat) {nd : Node}
    (hnd : 0 < nd.ref → nd.isdir = false → MetaOk v nd.info) : Inv v (s.setNode i nd) where
  cache := h.cache
  nodes j := by
    by_cases hj : j = i
    · simp only [State.setNode, if_pos hj]
      exact hnd
    · simp only [State.setNode, if_neg hj]
      exact h.nodes j

theorem getnode (h : Inv v s) {clus size ident : Word} {isdir : Bool}
    (hfile : isdir = false → v.File clus size.toNat) :
    Inv v (fatGetnode s clus size isdir ident) := by
  unfold fatGetnode
  split
  next i hfind =>
    have hused : 0 < (s.node i).ref := by
      have := List.find?_some hfind
      rw [decide_eq_true_iff] at this
      exact this.1
    exact h.setNode i fun _ hdir => h.nodes i hused hdir
  next =>
    split
    next i _ =>
      exact h.setNode i fun _ hdir => ⟨hfile hdir, fun hlive => absurd hlive (by decide : ¬live 0)⟩
    next => exact h

theorem readi (hv : v.WellFormed) (h : Inv v s) {i : Nat} {dst off n : Word}
    (href : 0 < (s.node i).ref) (hdir : (s.node i).isdir = false) :
    Inv v (readNode v runs s i dst off n).2 := by
  obtain ⟨hcache, hmeta, _⟩ :=
    (h.nodes i href hdir).wp_keeps hv runs dst off n s.fs h.cache rfl
  have hfs : Inv v { s with fs := (fatReadi v runs (s.node i).info dst off n s.fs).2 } :=
    ⟨hcache, h.nodes⟩
  exact hfs.setNode i fun _ _ => hmeta

theorem step (hv : v.WellFormed) (h : Inv v s) {e : Event} {t : State} (hok : v.Names s e)
    (hstep : step v runs s e = some t) : Inv v t := by
  cases e with
  | getnode clus size isdir ident =>
    obtain rfl := Option.some.inj hstep
    exact h.getnode hok
  | dup i =>
    rw [Fat.step] at hstep
    split at hstep
    next href =>
      obtain rfl := Option.some.inj hstep
      exact h.setNode i fun _ => h.nodes i href
    next => cases hstep
  | put i =>
    obtain rfl := Option.some.inj hstep
    exact h.setNode i fun hpos => h.nodes i (Nat.lt_of_lt_of_le hpos (Nat.sub_le _ _))
  | readi i dst off n =>
    rw [Fat.step] at hstep
    split at hstep
    next hcond =>
      obtain rfl := Option.some.inj hstep
      exact h.readi hv hcond.1 hcond.2
    next => cases hstep
  | other lba mem =>
    obtain rfl := Option.some.inj hstep
    exact ⟨h.cache.look lba, h.nodes⟩

end Inv

theorem History.inv {v : Volume} (hv : v.WellFormed) {runs : Runs} {s₀ s : State}
    (h : History v runs s₀ s) : Inv v s :=
  h.2.invariant (fun _ _ _ hok hstep hinv => hinv.step hv hok hstep) (.mounted h.1)

/-! ## Exactness -/

/-- The read returns the number of bytes from `off` to the end of the read or of the
    file, and puts these bytes of the file, and nothing else, into the buffer. -/
def Exact (v : Volume) (runs : Runs) (s : State) (i : Nat) (dst off n : Word) : Prop :=
  let fm := (s.node i).info
  (readNode v runs s i dst off n).1 = (asked fm off n : Int) ∧
    (readNode v runs s i dst off n).2.fs.mem =
      blit s.fs.mem dst (asked fm off n) fun k => v.byte (v.fileOffset fm.clus (off.toNat + k))

/-- The same volume with other data behind the FATs. -/
def Volume.withMedia (v : Volume) (media : Nat → Byte) : Volume := { v with media := media }

def Volume.SameFat (v : Volume) (media : Nat → Byte) : Prop :=
  ∀ x < v.dataStart, (v.withMedia media).byte x = v.byte x

section

variable {v : Volume} {media : Nat → Byte} {clus : Word}

theorem Volume.WellFormed.withMedia (h : v.WellFormed) (media : Nat → Byte) :
    (v.withMedia media).WellFormed := ⟨h.1, h.2, h.3, h.4, h.5, h.6, h.7⟩

section

variable (h : v.SameFat media) (hv : v.WellFormed)
include h hv

theorem Volume.SameFat.entry {cl : Word}
    (hcl : v.Holds cl) : (v.withMedia media).entry cl = v.entry cl := by
  have hle := hcl.entry_le hv
  have hbyte (i : Nat) (hi : i < 4) : (v.withMedia media).byte (v.fatStart + 4 * cl.toNat + i) =
      v.byte (v.fatStart + 4 * cl.toNat + i) := h _ (by omega)
  have h0 := hbyte 0 (by omega)
  rw [Nat.add_zero] at h0
  unfold Volume.entry
  show (((v.withMedia media).byte (v.fatStart + 4 * cl.toNat + 3) ++
    (v.withMedia media).byte (v.fatStart + 4 * cl.toNat + 2) ++
    (v.withMedia media).byte (v.fatStart + 4 * cl.toNat + 1) ++
    (v.withMedia media).byte (v.fatStart + 4 * cl.toNat) : Word)) &&& _ = _
  rw [hbyte 3 (by omega), hbyte 2 (by omega), hbyte 1 (by omega), h0]

theorem Volume.SameFat.chain (clus : Word) {k : Nat}
    (hk : ∀ j < k, v.Holds (v.chain clus j)) :
    (v.withMedia media).chain clus k = v.chain clus k := by
  induction k with
  | zero => rfl
  | succ k ih =>
    rw [Volume.chain, Volume.chain, ih fun j hj => hk j (by omega), h.entry hv (hk k (by omega))]

/-- The bytes of a file lie where they did. -/
theorem Volume.SameFat.fileOffset {size p : Nat}
    (hf : v.File clus size) (hp : p < size) :
    (v.withMedia media).fileOffset clus p = v.fileOffset clus p := by
  have hchain := h.chain hv clus (k := p / v.cluster) fun j hj => hf j (by
    have hle : j * v.cluster ≤ p / v.cluster * v.cluster := Nat.mul_le_mul_right _ hj.le
    exact Nat.lt_of_le_of_lt (hle.trans (Nat.div_mul_le_self _ _)) hp)
  show (v.withMedia media).clusterOffset ((v.withMedia media).chain clus (p / v.cluster)) _ = _
  rw [hchain]
  rfl

theorem Volume.SameFat.file {size : Nat}
    (hf : v.File clus size) : (v.withMedia media).File clus size := by
  intro k hk
  have hchain := h.chain hv clus (k := k) fun j hj => hf j (by
    have hle : j * v.cluster ≤ k * v.cluster := Nat.mul_le_mul_right _ hj.le
    exact Nat.lt_of_le_of_lt hle hk)
  rw [hchain]
  obtain ⟨hlive, hentry, hdata⟩ := hf k hk
  exact ⟨hlive, hentry, hdata⟩

end

/-- A read after any history. -/
theorem History.exact_iff (hv : v.WellFormed) {runs : Runs} {s₀ s : State} {i : Nat}
    {dst off n : Word} (h : History v runs s₀ s) (href : 0 < (s.node i).ref)
    (hdir : (s.node i).isdir = false) (hsum : off.toNat + n.toNat < 2 ^ 32)
    (hgood : (1024 ≤ asked (s.node i).info off n → ∀ k, runs k ≠ none) ∨
      ∀ k < asked (s.node i).info off n, v.fileOffset (s.node i).info.clus (off.toNat + k) < 2 ^ 32) :
    Exact v runs s i dst off n ↔ asked (s.node i).info off n < 2 ^ 31 ∧
      ∀ k < asked (s.node i).info off n,
        v.byte (v.fileOffset (s.node i).info.clus (off.toNat + k) % 2 ^ 32) =
          v.byte (v.fileOffset (s.node i).info.clus (off.toNat + k)) := by
  have hinv := h.inv hv
  obtain ⟨_, hret, hmem⟩ := (hinv.nodes i href hdir).wp_fatReadi hv hsum dst
    (fun _ : True => hgood) s.fs hinv.cache rfl
  have hlt : asked (s.node i).info off n < 2 ^ 32 :=
    Nat.lt_of_le_of_lt (Nat.min_le_left _ _) n.isLt
  refine and_congr ?_ ?_
  · show (fatReadi v runs (s.node i).info dst off n s.fs).1.1 = _ ↔ _
    rw [hret, BitVec.toInt_eq_toNat_cond, BitVec.toNat_ofNat, Nat.mod_eq_of_lt hlt]
    split
    next => exact ⟨fun _ => by omega, fun _ => rfl⟩
    next => exact ⟨fun _ => by omega, fun _ => by omega⟩
  · show (fatReadi v runs (s.node i).info dst off n s.fs).2.mem = _ ↔ _
    rw [hmem trivial, Blit.blit_eq_iff hlt.le]
    rfl

/-- A byte of the data may be another than any other byte of the volume. -/
theorem Volume.exists_media (v : Volume) {x y : Nat} (hx : v.dataStart ≤ x) (hne : y ≠ x) :
    ∃ media, v.SameFat media ∧ (v.withMedia media).byte y ≠ (v.withMedia media).byte x := by
  have hsucc (b : Byte) : b ≠ b + 1 := by
    intro h
    have hnat := congrArg BitVec.toNat h
    change b.toNat = (b.toNat + 1) % 256 at hnat
    omega
  have hother {z : Nat} (hz : z ≠ x) :
      (v.withMedia (update v.media (v.origin + x) (v.byte y + 1))).byte z = v.byte z := by
    show update v.media (v.origin + x) _ (v.origin + z) = _
    exact update_of_ne (by omega) _ _
  refine ⟨update v.media (v.origin + x) (v.byte y + 1), fun z hz => hother (by omega), ?_⟩
  rw [hother hne]
  show _ ≠ update v.media (v.origin + x) _ (v.origin + x)
  rw [update_self]
  exact hsucc _

/-- A mounted volume, and a node opened on it. -/
def opened (clus size : Word) : State :=
  fatGetnode ⟨⟨.empty, fun _ => 0, 0⟩, fun _ => ⟨0, 0, false, 0, 0, 0, 0⟩⟩ clus size false 1

theorem history_opened {size : Word} (hf : v.File clus size.toNat) (runs : Runs) :
    ∃ s₀, History v runs s₀ (opened clus size) :=
  ⟨_, ⟨fun _ => rfl, fun _ => rfl⟩, Run.Reaches.refl.tail (.getnode clus size false 1) (fun _ => hf) rfl⟩

theorem node_opened (clus size : Word) :
    (opened clus size).node 0 = ⟨1, 1, false, clus, size, 0, 0⟩ := rfl

/-- Over all contents of the data area and all histories, reads of `n` bytes at `off` of a
    file are exact if and only if all of the bytes lie below `2 ^ 32`, and they are fewer
    than `2 ^ 31`. -/
theorem fatReadi_exact_iff (hv : v.WellFormed) {size off n : Word} (hf : v.File clus size.toNat)
    (hsum : off.toNat + n.toNat < 2 ^ 32) :
    (∀ media, v.SameFat media → ∀ runs s₀ s i dst, History (v.withMedia media) runs s₀ s →
        0 < (s.node i).ref → (s.node i).isdir = false →
        (s.node i).info.clus = clus → (s.node i).info.size = size →
          Exact (v.withMedia media) runs s i dst off n) ↔
      (∀ k < min n.toNat (size.toNat - off.toNat), v.fileOffset clus (off.toNat + k) < 2 ^ 32) ∧
        min n.toNat (size.toNat - off.toNat) < 2 ^ 31 := by
  have hlt {k : Nat} (hk : k < min n.toNat (size.toNat - off.toNat)) :
      off.toNat + k < size.toNat := by omega
  constructor
  · intro hall
    -- every multi-sector command fails, and each byte comes from its own address
    have hread (media : Nat → Byte) (hsame : v.SameFat media) :=
      have hf' := hsame.file hv hf
      have ⟨s₀, hist⟩ := history_opened hf' fun _ => some fun _ => 0
      (hist.exact_iff (i := 0) (hv.withMedia media) Nat.one_pos rfl hsum
        (.inl fun _ _ h => nomatch h)).mp (hall media hsame _ s₀ _ 0 (0 : Word) hist Nat.one_pos rfl rfl rfl)
    refine ⟨fun k hk => ?_, (hread v.media fun _ _ => rfl).1⟩
    by_contra hge
    have hstart : v.dataStart ≤ v.fileOffset clus (off.toNat + k) := by
      rw [Volume.fileOffset, Volume.clusterOffset]
      omega
    obtain ⟨media, hsame, hne⟩ := v.exists_media (y := v.fileOffset clus (off.toNat + k) % 2 ^ 32)
      hstart (by omega)
    have heq := (hread media hsame).2 k hk
    rw [node_opened, hsame.fileOffset hv hf (hlt hk)] at heq
    exact hne heq
  · rintro ⟨hlow, hN⟩ media hsame runs s₀ s i dst hist href hdir rfl rfl
    have hoff {k : Nat} (hk : k < asked (s.node i).info off n) :=
      hsame.fileOffset hv hf (hlt hk)
    refine (hist.exact_iff (hv.withMedia media) href hdir hsum (.inr fun k hk => ?_)).mpr
      ⟨hN, fun k hk => ?_⟩
    · rw [hoff hk]
      exact hlow k hk
    · rw [hoff hk, Nat.mod_eq_of_lt (hlow k hk)]

theorem fileOffset_lt_total (hv : v.WellFormed) {size p : Nat} (hf : v.File clus size)
    (hp : p < size) : v.fileOffset clus p < 512 * v.total := by
  have r : Request v clus size 0 0 := ⟨hv, hf, Nat.zero_le _, by decide⟩
  exact r.fileOffset_lt hp

end

/-- A card on which every chain ends at once, with zeros for data but for one byte. -/
def card (spc fatsz : Word) (total far : Nat) : Volume where
  sd := true
  xip := 0
  sdpart := 0
  spc := spc
  rsvd := 32
  nfats := 1
  fatsz := fatsz
  total := total
  media := fun x => if x < 512 * (32 + fatsz.toNat) then 0xFF else if x = far then 1 else 0

theorem file_card {v : Volume} {clus : Word} {size : Nat} (hsize : size ≤ v.cluster)
    (h : v.Holds clus) : v.File clus size := by
  intro k hk
  cases k with
  | zero => exact h
  | succ k =>
    rw [Nat.succ_mul] at hk
    omega

theorem card_small_wellFormed : (card 1 1 100 0).WellFormed :=
  ⟨by decide, by decide, by decide, by decide, by decide, by decide, by decide⟩

theorem card_small_exact :
    Exact (card 1 1 100 0) (fun _ => none) (opened 2 512) 0 0x20000000 0 512 := by
  have hf : (card 1 1 100 0).File 2 (512 : Word).toNat := file_card (by decide) ⟨by decide, by decide, by decide⟩
  have hsum : (0 : Word).toNat + (512 : Word).toNat < 2 ^ 32 := by decide
  obtain ⟨s₀, hist⟩ := history_opened hf fun _ => none
  exact (fatReadi_exact_iff card_small_wellFormed hf hsum).mpr ⟨fun k hk => Nat.lt_trans (fileOffset_lt_total card_small_wellFormed hf
      (by simpa using hk)) (by decide), by decide⟩ _ (fun _ _ => rfl) _ s₀ _ 0 _ hist Nat.one_pos rfl rfl rfl

/-- A card of 4 GiB and 64 KiB, with one byte set: the first of the last cluster. -/
def card4G : Volume := card 128 513 8389281 4295246336

theorem card4G_wellFormed : card4G.WellFormed :=
  ⟨by decide, by decide, by decide, by decide, by decide, by decide, by decide⟩

/-- The read of that byte returns the first byte of the first cluster. -/
theorem card4G_not_exact :
    ∃ s₀, card4G.WellFormed ∧ card4G.File 65538 1 ∧ History card4G (fun _ => none) s₀ (opened 65538 1) ∧
      ¬Exact card4G (fun _ => none) (opened 65538 1) 0 0x20000000 0 1 := by
  have hf : card4G.File 65538 (1 : Word).toNat := file_card (by decide) ⟨by decide, by decide, by decide⟩
  obtain ⟨s₀, hist⟩ := history_opened hf fun _ => none
  refine ⟨s₀, card4G_wellFormed, hf, hist, fun h => ?_⟩
  have hbytes := ((hist.exact_iff card4G_wellFormed (i := 0) Nat.one_pos rfl (by decide)
    (.inl fun hlong => absurd hlong (by decide))).mp h).2 0 (by decide)
  exact absurd hbytes (by decide)

end DmaCpu.Fat
