-- SUMMARY: What the loops of a read deliver into memory.
import DmaCpu.Fat.Walk

/-!
# Delivering bytes

`Wp v m x Q` says that from memory `m` and any right cache the computation `x` ends
with a right cache, and with a value and a memory in `Q`; there is one rule for each
operation. A read that has a byte at offset `x` of the volume to deliver takes it from
`x % 2 ^ 32`.
-/
namespace DmaCpu.Fat

open BitVec

open Blit (blit Mem Copied)

def Wp {α : Type} (v : Volume) (m : Mem 32 Byte) (x : StateM Fs α) (Q : α → Mem 32 Byte → Prop) :
    Prop :=
  ∀ s : Fs, CacheOk v s.cache → s.mem = m → CacheOk v (x s).2.cache ∧ Q (x s).1 (x s).2.mem

variable {len : Nat} {Q : Unit → Mem 32 Byte → Prop} {runs : Runs}

section Rules

variable {α β : Type} {v : Volume} {m : Mem 32 Byte}

theorem wp_pure {a : α} {Q : α → Mem 32 Byte → Prop} (h : Q a m) : Wp v m (pure a) Q := by
  rintro s hc rfl
  exact ⟨hc, h⟩

theorem wp_bind {x : StateM Fs α} {f : α → StateM Fs β} {Q : β → Mem 32 Byte → Prop}
    (h : Wp v m x fun a m' => Wp v m' (f a) Q) : Wp v m (x >>= f) Q := by
  intro s hc hm
  obtain ⟨hc', h'⟩ := h s hc hm
  exact h' (x s).2 hc' rfl

theorem wp_mono {x : StateM Fs α} {Q Q' : α → Mem 32 Byte → Prop} (h : Wp v m x Q)
    (himp : ∀ a m', Q a m' → Q' a m') : Wp v m x Q' := fun s hc hm =>
  (h s hc hm).imp_right (himp _ _)

theorem wp_cached {x : StateM Cache α} {a : α} {Q : α → Mem 32 Byte → Prop} (hx : Reads v x a)
    (h : Q a m) : Wp v m (cached x) Q := by
  rintro s hc rfl
  refine ⟨hx.cache _ hc, ?_⟩
  show Q (x s.cache).1 s.mem
  rwa [hx.value _ hc]

theorem wp_put {d : Word} {src : Nat → Byte}
    (h : Q () (blit m d len src)) : Wp v m (put d len src) Q := by
  rintro s hc rfl
  exact ⟨hc, h⟩

theorem toNat_and_3 (w : Word) : (w &&& 3).toNat = w.toNat % 4 := by
  exact Nat.and_two_pow_sub_one_eq_mod w.toNat 2

theorem wp_kdmacpy {dst src : Word} (hlen : len < 2 ^ 32)
    (h : Q () (blit m dst len fun i => v.media (src + BitVec.ofNat 32 i).toNat)) :
    Wp v m (kdmacpy v dst src len) Q := by
  rintro s hc rfl
  unfold kdmacpy
  by_cases halign : (dst ||| src ||| BitVec.ofNat 32 len) &&& 3 = 0
  · have hwords : 4 * (len / 4) = len := by
      have hzero := halign
      rw [and_or_distrib_right] at hzero
      have hmod := congrArg BitVec.toNat (or_eq_zero_iff.mp hzero).2
      rw [toNat_and_3, toNat_ofNat, Nat.mod_eq_of_lt hlen] at hmod
      exact Nat.mul_div_cancel' (Nat.dvd_of_mod_eq_zero hmod)
    simp only [if_pos halign]
    rw [Blit.copyUnits_eq_blit _ _ _ _ _ (by omega), hwords]
    exact ⟨hc, h⟩
  · simp only [if_neg halign]
    rw [Blit.copyUnits_eq_blit _ _ _ _ _ (by omega), Nat.one_mul]
    exact ⟨hc, h⟩

theorem wp_ksdReadRun {lba dst : Word} {n : Nat} {Q : Bool → Mem 32 Byte → Prop}
    (hok : ∀ k, runs k = none →
      Q true (blit m dst (512 * n) fun i => v.media (512 * lba.toNat + i)))
    (hfail : ∀ junk, Q false (blit m dst (512 * n) junk)) :
    Wp v m (ksdReadRun v runs lba dst n) Q := by
  rintro s hc rfl
  unfold ksdReadRun
  split
  next hnone => exact ⟨hc, hok _ hnone⟩
  next junk _ => exact ⟨hc, hfail junk⟩

end Rules

/-! ## Sectors -/

theorem add_ofNat_add (a : Word) (i j : Nat) :
    a + BitVec.ofNat 32 i + BitVec.ofNat 32 j = a + BitVec.ofNat 32 (i + j) := by
  rw [add_assoc, ofNat_add]

section

variable {v : Volume} {good : Prop} {m₀ m : Mem 32 Byte} {dst : Word} {N : Nat}
  {bytes : Nat → Byte}

theorem fbase_sub (hsd : v.sd = true) (x : Nat) :
    v.fbase + BitVec.ofNat 32 x - sdbase = BitVec.ofNat 32 x := by
  rw [Volume.fbase, if_pos hsd, add_comm, add_sub_cancel]

theorem sector_of_fbase (hsd : v.sd = true) {x : Nat}
    (h : (v.fbase + BitVec.ofNat 32 x) &&& 511 = 0) : x % 512 = 0 := by
  have hbase : v.fbase = BitVec.ofNat 32 0x08000000 := by
    rw [Volume.fbase, if_pos hsd]
    rfl
  rw [hbase, ← ofNat_add] at h
  have hnat := congrArg BitVec.toNat h
  rw [toNat_and_511] at hnat
  change (0x08000000 + x) % 512 = 0 at hnat
  omega

theorem wp_sectorLoop (hv : v.WellFormed) (hsd : v.sd = true) (hN : N < 2 ^ 32)
    {fuel x k left : Nat} (hfuel : left ≤ fuel) (hk : k + left ≤ N)
    (hx : ∀ i < left, (x + i) % 2 ^ 32 < 512 * v.total)
    (hbytes : ∀ i < left, v.byte ((x + i) % 2 ^ 32) = bytes (k + i))
    (h : good → Copied m₀ m dst N k bytes) :
    Wp v m (sectorLoop v fuel (BitVec.ofNat 32 x) (dst + BitVec.ofNat 32 k) left)
      fun _ m' => good → Copied m₀ m' dst N (k + left) bytes := by
  induction fuel generalizing x k left m with
  | zero =>
    obtain rfl : left = 0 := by omega
    exact wp_pure h
  | succ fuel ih =>
    rw [sectorLoop]
    by_cases hleft : left = 0
    · rw [hleft]
      exact wp_pure h
    · rw [if_neg hleft]
      have hlba := hx 0 (by omega)
      rw [Nat.add_zero] at hlba
      -- one piece of `c` bytes out of the sector, then the rest
      have hpiece {c : Nat} (hc : 0 < c) (hcl : c ≤ left) (hsec : x % 512 + c ≤ 512)
          (m : Mem 32 Byte) (h : good → Copied m₀ m dst N k bytes) :
          Wp v (blit m (dst + BitVec.ofNat 32 k) c fun j =>
              v.sector (v.sdpart + (BitVec.ofNat 32 x >>> 9)) (x % 512 + j))
            (sectorLoop v fuel (BitVec.ofNat 32 x + BitVec.ofNat 32 c)
              (dst + BitVec.ofNat 32 k + BitVec.ofNat 32 c) (left - c))
            fun _ m' => good → Copied m₀ m' dst N (k + left) bytes := by
        rw [add_ofNat_add, ← ofNat_add, show k + left = k + c + (left - c) by omega]
        refine ih (by omega) (by omega) (fun i hi => ?_) (fun i hi => ?_) fun hg => ?_
        · have := hx (c + i) (by omega)
          rwa [← Nat.add_assoc] at this
        · have := hbytes (c + i) (by omega)
          rwa [← Nat.add_assoc, ← Nat.add_assoc] at this
        · refine (h hg).next (by omega) (by omega) fun i hi => ?_
          rw [hv.sector_lba hsd hlba (by omega)]
          exact hbytes i (by omega)
      simp only [toNat_and_511]
      split
      next hwhole =>
        obtain ⟨hin, h512, _⟩ := hwhole
        apply wp_bind
        apply wp_put
        have hp := hpiece (c := 512) (by omega) h512 (by omega) m h
        simp only [hin, Nat.zero_add] at hp
        exact hp
      next =>
        apply wp_bind
        apply wp_cached (reads_sdsec v (hv.lba_add_one_ne hsd hlba))
        apply wp_bind
        apply wp_put
        exact hpiece (by omega) (by omega) (by omega) m h

/-- A piece of one cluster, from the card or from the bus. -/
theorem wp_transfer (hv : v.WellFormed) (hN : N < 2 ^ 32) {x k : Nat} (hk : k + len ≤ N)
    (hx : ∀ i < len, (x + i) % 2 ^ 32 < 512 * v.total)
    (hbytes : ∀ i < len, v.byte ((x + i) % 2 ^ 32) = bytes (k + i))
    (h : good → Copied m₀ m dst N k bytes) :
    Wp v m (transfer v (dst + BitVec.ofNat 32 k) (v.fbase + BitVec.ofNat 32 x) len)
      fun _ m' => good → Copied m₀ m' dst N (k + len) bytes := by
  rw [transfer]
  split
  next hsd =>
    rw [fbase_sub hsd]
    exact wp_sectorLoop hv hsd hN (Nat.le_refl _) hk hx hbytes h
  next hsd =>
    apply wp_kdmacpy (by omega)
    refine fun hg => (h hg).next hk (by omega) fun i hi => ?_
    have hbus := hv.bus (Bool.eq_false_iff.mpr hsd)
    have hlt := hx i hi
    rw [← hbytes i hi, Volume.byte, Volume.origin, Volume.fbase, if_neg hsd, if_neg hsd,
      add_ofNat_add, toNat_add, toNat_ofNat]
    congr 1
    omega

end

/-! ## Clusters -/

section

variable {v : Volume} {cl : Word}

/-- The address of a byte of a cluster, as it is computed. -/
theorem clusaddr_add (hv : v.WellFormed) (hcl : 2 ≤ cl.toNat) (pos : Nat) :
    clusaddr v cl + BitVec.ofNat 32 pos = v.fbase + BitVec.ofNat 32 (v.clusterOffset cl pos) := by
  have hdata : BitVec.ofNat 32 v.dataStart = v.dataoff := by
    rw [Volume.dataStart, ofNat_mul, ofNat_add, ofNat_mul,
      ofNat_toNat, ofNat_toNat, ofNat_toNat, mul_comm]
    rfl
  have hsub : BitVec.ofNat 32 (cl.toNat - 2) = cl - 2 := by
    apply eq_of_toNat_eq
    show (cl.toNat - 2) % 4294967296 = (4294967296 - 2 + cl.toNat) % 4294967296
    omega
  have hsize : BitVec.ofNat 32 v.cluster = v.clussz := by
    rw [← hv.toNat_clussz, ofNat_toNat]
  rw [Volume.clusterOffset, ofNat_add, ofNat_add, ofNat_mul, hdata, hsub,
    hsize, clusaddr, add_assoc, add_assoc, add_assoc]

end

/-- A file that the volume holds, and a read of `N` bytes of it from `off` on. -/
structure Request (v : Volume) (clus : Word) (size off N : Nat) : Prop where
  wf : v.WellFormed
  file : v.File clus size
  within : off + N ≤ size
  small : off + N < 2 ^ 32

variable {p i : Nat}

namespace Request

variable {v : Volume} {clus : Word} {size off N : Nat}

/-- The byte that the code delivers for byte `i`. -/
def taken (v : Volume) (clus : Word) (off i : Nat) : Byte :=
  v.byte (v.fileOffset clus (off + i) % 2 ^ 32)

variable (r : Request v clus size off N)
include r

theorem holds (hp : p < size) : v.Holds (v.chain clus (p / v.cluster)) :=
  r.file _ (Nat.lt_of_le_of_lt (Nat.div_mul_le_self _ _) hp)

theorem fileOffset_lt (hp : p < size) : v.fileOffset clus p < 512 * v.total := by
  have hdata := (r.holds hp).data
  have hmod := Nat.mod_lt p r.wf.cluster_pos
  rw [Volume.clusterOffset] at hdata
  rw [Volume.fileOffset, Volume.clusterOffset]
  omega

theorem lt : N < 2 ^ 32 := Nat.lt_of_le_of_lt (Nat.le_add_left N off) r.small

omit r in
/-- The bytes of one cluster. -/
theorem fileOffset_add (hi : p % v.cluster + i < v.cluster) : v.fileOffset clus (p + i) =
      v.clusterOffset (v.chain clus (p / v.cluster)) (p % v.cluster) + i := by
  have hp := Nat.div_add_mod p v.cluster
  have hdiv : (p + i) / v.cluster = p / v.cluster := by
    rw [← hp, Nat.add_assoc, Nat.mul_add_div (by omega), Nat.div_eq_of_lt hi, Nat.add_zero, hp]
  have hmod : (p + i) % v.cluster = p % v.cluster + i := by
    rw [← Nat.mod_eq_of_lt hi]
    conv_lhs => rw [← hp, Nat.add_assoc, Nat.mul_add_mod]
  rw [Volume.fileOffset, hdiv, Volume.clusterOffset, Volume.clusterOffset]
  omega

end Request

/-- The cursor stands at the next byte of the file. -/
structure CursorOk (v : Volume) (clus : Word) (off N : Nat) (c : Cursor) : Prop where
  le : c.1 ≤ N
  pos : c.1 < N → c.2.1 = (off + c.1) % v.cluster
  cl : c.1 < N → c.2.2 = v.chain clus ((off + c.1) / v.cluster)

/-- The cursor, and the bytes delivered so far if they are to be relied on. -/
structure Sofar (v : Volume) (clus : Word) (off N : Nat) (good : Prop) (dst : Word)
    (m₀ : Mem 32 Byte) (c : Cursor) (m : Mem 32 Byte) : Prop where
  cursor : CursorOk v clus off N c
  copied : good → Copied m₀ m dst N c.1 (Request.taken v clus off)

namespace Request

variable {v : Volume} {clus : Word} {size off N : Nat} {good : Prop} {dst : Word}
  {m₀ m : Mem 32 Byte} {c : Cursor}

theorem wp_readCluster (r : Request v clus size off N) (h : Sofar v clus off N good dst m₀ c m)
    (hlt : c.1 < N) :
    Wp v m (readCluster v dst N c) fun c' m' =>
      c.1 < c'.1 ∧ Sofar v clus off N good dst m₀ c' m' := by
  obtain ⟨done, pos, cl⟩ := c
  obtain ⟨⟨hle, hpos, hcl⟩, hcopied⟩ := h
  obtain rfl : pos = (off + done) % v.cluster := hpos hlt
  obtain rfl : cl = v.chain clus ((off + done) / v.cluster) := hcl hlt
  have hp : off + done < size := by
    have := r.within
    omega
  have hholds := r.holds hp
  have hmod := Nat.mod_lt (off + done) r.wf.cluster_pos
  have hoff (i : Nat) (hi : i < min (v.cluster - (off + done) % v.cluster) (N - done)) :
      v.fileOffset clus (off + (done + i)) =
        v.clusterOffset (v.chain clus ((off + done) / v.cluster)) ((off + done) % v.cluster) + i := by
    rw [← Nat.add_assoc]
    exact fileOffset_add (by omega)
  apply wp_bind
  rw [clusaddr_add r.wf hholds.live.1]
  refine wp_mono (wp_transfer r.wf r.lt (by omega) (fun i hi => ?_) (fun i hi => ?_) hcopied) ?_
  · rw [← hoff i hi]
    exact Nat.lt_of_le_of_lt (Nat.mod_le _ _) (r.fileOffset_lt (by have := r.within; omega))
  · rw [taken, hoff i hi]
  · intro _ m' hcopied'
    apply wp_bind
    apply wp_cached (reads_fatNext r.wf hholds)
    apply wp_pure
    -- unless this was the last piece, the cluster has been read to its end
    have hend (hmore : done + min (v.cluster - (off + done) % v.cluster) (N - done) < N) :
        off + (done + min (v.cluster - (off + done) % v.cluster) (N - done)) =
          v.cluster * ((off + done) / v.cluster + 1) := by
      have := Nat.div_add_mod (off + done) v.cluster
      rw [Nat.mul_succ]
      omega
    refine ⟨by show done < done + _; omega, ⟨by show done + _ ≤ N; omega, ?_, ?_⟩, hcopied'⟩
    · intro hmore
      rw [hend hmore, Nat.mul_mod_right]
    · intro hmore
      rw [hend hmore, Nat.mul_div_cancel_left _ r.wf.cluster_pos]
      rfl

theorem fileOffset_mul (clus : Word) (k : Nat) {pos : Nat} (hpos : pos < v.cluster) :
    v.fileOffset clus (k * v.cluster + pos) = v.clusterOffset (v.chain clus k) pos := by
  rw [Volume.fileOffset, Nat.mul_comm, Nat.mul_add_mod, Nat.mod_eq_of_lt hpos,
    Nat.mul_add_div (by omega), Nat.div_eq_of_lt hpos, Nat.add_zero]

/-- Addresses that are equal in 32 bits are equal when they are low. -/
theorem offset_of_clusaddr (hv : v.WellFormed) {a b : Word} (ha : 2 ≤ a.toNat) (hb : 2 ≤ b.toNat)
    (hlow : v.clusterOffset a 0 < 2 ^ 32) (hend : v.clusterOffset b 0 + v.cluster ≤ 2 ^ 32)
    (h : clusaddr v a = clusaddr v b + v.clussz) :
    v.clusterOffset a 0 = v.clusterOffset b 0 + v.cluster := by
  have hpos : 0 < v.clusterOffset a 0 := by
    have hfat := Nat.mul_pos hv.nfats_pos hv.fatsz_pos
    rw [Volume.clusterOffset, Volume.dataStart]
    omega
  have hsize : v.clussz = BitVec.ofNat 32 v.cluster := by
    rw [← hv.toNat_clussz, ofNat_toNat]
  have haddr := clusaddr_add hv ha 0
  rw [h, BitVec.add_zero, ← BitVec.add_zero (clusaddr v b), clusaddr_add hv hb 0, hsize,
    add_ofNat_add, add_right_inj] at haddr
  have hmod := congrArg BitVec.toNat haddr
  rw [toNat_ofNat, toNat_ofNat] at hmod
  omega

/-- Clusters that lie behind one another, with all the bytes from `p` on below
    `2 ^ 32`. -/
theorem contiguous_offset (hv : v.WellFormed) {c j q : Nat}
    (hcont : Contiguous v (v.chain clus c) j) (hcl : live (v.chain clus c)) (hq : q ≤ j)
    (hp : p < (c + 1) * v.cluster)
    (hlow : ∀ p', p ≤ p' → p' ≤ (c + q) * v.cluster → v.fileOffset clus p' < 2 ^ 32) :
    v.clusterOffset (v.chain clus (c + q)) 0 =
      v.clusterOffset (v.chain clus c) 0 + q * v.cluster := by
  have hcluster := hv.cluster_pos
  induction q with
  | zero => rw [Nat.zero_mul]; rfl
  | succ q ih =>
    obtain ⟨hlive, hadj⟩ := hcont q (by omega)
    rw [← chain_add, ← chain_add] at hadj
    rw [← chain_add] at hlive
    have hprev : live (v.chain clus (c + q)) := by
      cases q with
      | zero => exact hcl
      | succ q =>
        have := (hcont q (by omega)).1
        rwa [← chain_add] at this
    have hmul : (c + (q + 1)) * v.cluster = (c + q) * v.cluster + v.cluster := by
      rw [← Nat.add_assoc, Nat.succ_mul]
    have hmono : c * v.cluster ≤ (c + q) * v.cluster := Nat.mul_le_mul_right _ (by omega)
    rw [Nat.succ_mul] at hp
    have hfirst := hlow ((c + (q + 1)) * v.cluster + 0) (by omega) (by omega)
    rw [fileOffset_mul clus _ hcluster] at hfirst
    have hlast := hlow ((c + q) * v.cluster + (v.cluster - 1)) (by omega) (by omega)
    rw [fileOffset_mul clus _ (by omega), Volume.clusterOffset] at hlast
    have hend : v.clusterOffset (v.chain clus (c + q)) 0 + v.cluster ≤ 2 ^ 32 := by
      rw [Volume.clusterOffset]
      omega
    rw [offset_of_clusaddr hv hlive.1 hprev.1 hfirst hend hadj,
      ih (by omega) fun p' hle hle' => hlow p' hle (by omega), Nat.succ_mul, Nat.add_assoc]

/-- A run of bytes over clusters that lie behind one another. -/
theorem run_offset (hv : v.WellFormed) {j : Nat}
    (hcont : Contiguous v (v.chain clus (p / v.cluster)) j)
    (hcl : live (v.chain clus (p / v.cluster))) (hi : p % v.cluster + i < (j + 1) * v.cluster)
    (hlow : ∀ i' ≤ i, v.fileOffset clus (p + i') < 2 ^ 32) :
    v.fileOffset clus (p + i) = v.fileOffset clus p + i := by
  have hcluster := hv.cluster_pos
  have hp := Nat.div_add_mod' p v.cluster
  have hr := Nat.mod_lt (p % v.cluster + i) hcluster
  have hqr := Nat.div_add_mod' (p % v.cluster + i) v.cluster
  have hq : (p % v.cluster + i) / v.cluster ≤ j := by
    have := Nat.div_lt_of_lt_mul (Nat.mul_comm _ _ ▸ hi)
    omega
  generalize hqdef : (p % v.cluster + i) / v.cluster = q at hqr hq
  have hsum : (p / v.cluster + q) * v.cluster = p / v.cluster * v.cluster + q * v.cluster :=
    Nat.add_mul _ _ _
  have hmod := Nat.mod_lt p hcluster
  have hoff := contiguous_offset hv (p := p) hcont hcl hq (by rw [Nat.succ_mul]; omega)
    fun p' hle hle' => by
      have := hlow (p' - p) (by omega)
      rwa [Nat.add_sub_cancel' hle] at this
  have hpi : p + i = (p / v.cluster + q) * v.cluster + (p % v.cluster + i) % v.cluster := by omega
  rw [hpi, fileOffset_mul clus _ hr, Volume.fileOffset]
  rw [Volume.clusterOffset, Volume.clusterOffset] at hoff
  rw [Volume.clusterOffset, Volume.clusterOffset]
  omega

/-- The cursor of a sector lies at a sector of its cluster. -/
theorem pos_sector {cl : Word} {pos : Nat} (h : v.clusterOffset cl pos % 512 = 0) : pos % 512 = 0 := by
  rw [Volume.clusterOffset, Volume.dataStart, Volume.cluster, Nat.mul_left_comm] at h
  omega

/-- The clusters that a span is extended over are clusters of the file. -/
theorem holds_span (r : Request v clus size off N)
    (h : v.cluster - p % v.cluster + i * v.cluster + p < size) :
    v.Holds (v.chain (v.chain clus (p / v.cluster)) i) := by
  have hp := Nat.div_add_mod' p v.cluster
  rw [← chain_add]
  apply r.file
  rw [Nat.add_mul]
  omega

/-- The clusters that a cursor is moved over are clusters of the file. -/
theorem holds_advance (r : Request v clus size off N) {y k : Nat} (hy : p + y ≤ size)
    (hk : k < (p % v.cluster + y) / v.cluster) :
    v.Holds (v.chain (v.chain clus (p / v.cluster)) k) := by
  have hp := Nat.div_add_mod' p v.cluster
  have hpos := r.wf.cluster_pos
  have hle : (k + 1) * v.cluster ≤ p % v.cluster + y :=
    Nat.le_trans (Nat.mul_le_mul_right _ hk) (Nat.div_mul_le_self _ _)
  rw [Nat.succ_mul] at hle
  rw [← chain_add]
  apply r.file
  rw [Nat.add_mul]
  omega

/-- What a multi-sector command reads, if all of it is below `2 ^ 32`. -/
theorem run_bytes (r : Request v clus size off N) (hsd : v.sd = true) {done j : Nat}
    (hlow : ∀ i < N, v.fileOffset clus (off + i) < 2 ^ 32) (hN : done + len ≤ N)
    (hsector : v.fileOffset clus (off + done) % 512 = 0)
    (hcont : Contiguous v (v.chain clus ((off + done) / v.cluster)) j)
    (hlen : (off + done) % v.cluster + len ≤ (j + 1) * v.cluster) (hi : i < len) :
    v.media (512 * (v.sdpart +
        (BitVec.ofNat 32 (v.fileOffset clus (off + done)) >>> 9)).toNat + i) =
      taken v clus off (done + i) := by
  have hwithin := r.within
  have hholds := r.holds (p := off + done) (by omega)
  have hrun : v.fileOffset clus (off + (done + i)) = v.fileOffset clus (off + done) + i := by
    rw [← Nat.add_assoc]
    refine run_offset r.wf hcont hholds.live (by omega) fun i' hi' => ?_
    rw [Nat.add_assoc]
    exact hlow _ (by omega)
  have hlast := hlow (done + i) (by omega)
  have htotal := r.fileOffset_lt (p := off + done) (by omega)
  rw [taken, Volume.byte, Volume.origin, if_pos hsd,
    r.wf.toNat_lba hsd (by omega)]
  congr 1
  omega

/-- The cursor behind a run. -/
theorem cursor_advance (hv : v.WellFormed) {done : Nat} (hN : done + len ≤ N) :
    CursorOk v clus off N (done + len, ((off + done) % v.cluster + len) % v.cluster,
      v.chain (v.chain clus ((off + done) / v.cluster))
        (((off + done) % v.cluster + len) / v.cluster)) where
  le := hN
  pos _ := by
    rw [Nat.mod_add_mod, Nat.add_assoc]
  cl _ := by
    have hdiv : (off + (done + len)) / v.cluster =
        (off + done) / v.cluster + ((off + done) % v.cluster + len) / v.cluster := by
      rw [← Nat.mul_add_div hv.cluster_pos, ← Nat.add_assoc (v.cluster * _), Nat.div_add_mod,
        Nat.add_assoc]
    rw [← chain_add, hdiv]

theorem wp_readRun (r : Request v clus size off N)
    (hgood : good → (1024 ≤ N → ∀ k, runs k ≠ none) ∨
      ∀ i < N, v.fileOffset clus (off + i) < 2 ^ 32)
    (h : Sofar v clus off N good dst m₀ c m) (hlt : c.1 < N) :
    Wp v m (readRun v runs dst N c) fun o m' =>
      match o with
      | some c' => c.1 < c'.1 ∧ Sofar v clus off N good dst m₀ c' m'
      | none => Sofar v clus off N good dst m₀ c m' := by
  have hstay := h
  obtain ⟨done, pos, cl⟩ := c
  obtain ⟨⟨hle, hpos, hcl⟩, hcopied⟩ := h
  obtain rfl : pos = (off + done) % v.cluster := hpos hlt
  obtain rfl : cl = v.chain clus ((off + done) / v.cluster) := hcl hlt
  have hp : off + done < size := by
    have := r.within
    omega
  have hholds := r.holds hp
  have hmod := Nat.mod_lt (off + done) r.wf.cluster_pos
  unfold readRun
  simp only [clusaddr_add r.wf hholds.live.1]
  split
  next hcond =>
    obtain ⟨hsd, halign, _, hlong⟩ := hcond
    have hsector := sector_of_fbase hsd halign
    have hpos512 := pos_sector hsector
    have hcluster : 512 * (v.cluster / 512) = v.cluster := by
      rw [Volume.cluster, Nat.mul_div_cancel_left _ (by decide)]
    have hspan (i : Nat)
        (hi : (v.cluster - (off + done) % v.cluster) / 512 + i * (v.cluster / 512) <
          (N - done) / 512) :
        v.Holds (v.chain (v.chain clus ((off + done) / v.cluster)) i) := r.holds_span (by
      have hmul : 512 * (i * (v.cluster / 512)) = i * v.cluster := by
        rw [Nat.mul_left_comm, hcluster]
      have := r.within
      omega)
    obtain ⟨j, hread, hcont, _⟩ := reads_spanLoop r.wf ((N - done) / 512) hspan
    apply wp_bind
    apply wp_cached hread
    have hfound : 512 * ((v.cluster - (off + done) % v.cluster) / 512 + j * (v.cluster / 512)) =
        v.cluster - (off + done) % v.cluster + j * v.cluster := by
      rw [Nat.mul_add, Nat.mul_left_comm 512 j, hcluster]
      omega
    generalize (v.cluster - (off + done) % v.cluster) / 512 + j * (v.cluster / 512) = found at hfound ⊢
    have hspan : 512 * min found ((N - done) / 512) ≤ N - done := by omega
    have hspanj : 512 * min found ((N - done) / 512) ≤
        v.cluster - (off + done) % v.cluster + j * v.cluster := by omega
    generalize min found ((N - done) / 512) = span at hspan hspanj ⊢
    rw [fbase_sub hsd]
    split
    next hspan1 =>
      apply wp_bind
      refine wp_ksdReadRun (fun k hk => ?_) fun junk => ?_
      · have hwithin := r.within
        have hend : ((off + done) % v.cluster + 512 * span) % 2 ^ 32 =
            (off + done) % v.cluster + 512 * span := by
          have hle := Nat.mod_le (off + done) v.cluster
          have hsmall := r.small
          exact Nat.mod_eq_of_lt (by omega)
        rw [hend]
        apply wp_bind
        apply wp_cached (reads_advanceLoop r.wf (Nat.div_le_self _ _) fun i hi =>
          r.holds_advance (by omega) hi)
        apply wp_pure
        refine ⟨by show done < done + _; omega, cursor_advance r.wf (by omega), fun hg => ?_⟩
        have hlow := (hgood hg).resolve_left fun hfail => hfail (by omega) k hk
        exact (hcopied hg).next (by omega) (by have := r.lt; omega) fun i hi =>
          r.run_bytes hsd hlow (by omega) hsector hcont
            (by rw [Nat.add_one_mul j]; omega) hi
      · apply wp_pure
        exact ⟨hstay.cursor, fun hg => (hcopied hg).spoilt (by omega) (by have := r.lt; omega) junk⟩
    next => exact wp_pure hstay
  next => exact wp_pure hstay

/-- The loop delivers everything. -/
theorem wp_readLoop (r : Request v clus size off N)
    (hgood : good → (1024 ≤ N → ∀ k, runs k ≠ none) ∨
      ∀ i < N, v.fileOffset clus (off + i) < 2 ^ 32)
    {fuel : Nat} (hfuel : N ≤ c.1 + fuel) (h : Sofar v clus off N good dst m₀ c m) :
    Wp v m (readLoop v runs dst N fuel c) fun n m' =>
      n = N ∧ (good → Copied m₀ m' dst N N (taken v clus off)) := by
  have hdone {c : Cursor} {m : Mem 32 Byte} (h : Sofar v clus off N good dst m₀ c m) (hN : N ≤ c.1) :
      c.1 = N ∧ (good → Copied m₀ m dst N N (taken v clus off)) := by
    have heq : c.1 = N := Nat.le_antisymm h.cursor.le hN
    exact ⟨heq, heq ▸ h.copied⟩
  induction fuel generalizing c m with
  | zero => exact wp_pure (hdone h hfuel)
  | succ fuel ih =>
    rw [readLoop]
    split
    next hcond =>
      apply wp_bind
      refine wp_mono (r.wp_readRun hgood h hcond.1) fun o m' ho => ?_
      cases o with
      | some c' => exact ih (by have := ho.1; omega) ho.2
      | none =>
        apply wp_bind
        exact wp_mono (r.wp_readCluster ho hcond.1) fun c' m'' hc' =>
          ih (by have := hc'.1; omega) hc'.2
    next hcond =>
      refine wp_pure (hdone h (Nat.le_of_not_lt fun hlt => hcond ⟨hlt, ?_⟩))
      have := r.within
      rw [h.cursor.cl hlt]
      exact (r.holds (by omega)).live

end Request

end DmaCpu.Fat
