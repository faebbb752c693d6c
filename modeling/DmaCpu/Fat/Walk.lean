-- SUMMARY: The sector cache is transparent, and the chain walks of a read end at the right cluster.
import DmaCpu.Fat.Read

/-!
# Walking chains

`Reads v x a` says that the computation `x` returns `a` whatever the cache holds, and
leaves a cache that is right again. An address computed in 32 bits stands for its
offset modulo `2 ^ 32`.
-/
namespace DmaCpu.Fat

/-- A boot sector that `fat_mount` accepts, on a volume that its medium holds: a card
    has fewer than `2 ^ 32` sectors, the bus `2 ^ 32` bytes. -/
structure Volume.WellFormed (v : Volume) : Prop where
  spc_pos : 0 < v.spc.toNat
  spc_lt : v.spc.toNat < 256
  rsvd_lt : v.rsvd.toNat < 65536
  nfats_pos : 0 < v.nfats.toNat
  fatsz_pos : 0 < v.fatsz.toNat
  card : v.sd = true → v.sdpart.toNat + v.total < 2 ^ 32
  bus : v.sd = false → v.xip.toNat + 512 * v.total ≤ 2 ^ 32

/-- A cluster of the volume: it has an entry in the FAT, and its data. -/
structure Volume.Holds (v : Volume) (cl : Word) : Prop where
  live : live cl
  entry : 4 * cl.toNat + 4 ≤ 512 * v.fatsz.toNat
  data : v.clusterOffset cl v.cluster ≤ 512 * v.total

/-- The chain from `clus` has the clusters of a file of this size. -/
def Volume.File (v : Volume) (clus : Word) (size : Nat) : Prop :=
  ∀ k, k * v.cluster < size → v.Holds (v.chain clus k)

/-! ## The cache -/

/-- What the cache holds is on the card. -/
def CacheOk (v : Volume) (c : Cache) : Prop :=
  ∀ i, c.tag i ≠ 0 → c.data i = v.sector (c.tag i - 1)

structure Reads {α : Type} (v : Volume) (x : StateM Cache α) (a : α) : Prop where
  value : ∀ c, CacheOk v c → (x c).1 = a
  cache : ∀ c, CacheOk v c → CacheOk v (x c).2

namespace Reads

variable {α β : Type} {v : Volume}

theorem pure (a : α) : Reads v (Pure.pure a) a := ⟨fun _ _ => rfl, fun _ h => h⟩

theorem bind {x : StateM Cache α} {f : α → StateM Cache β} {a : α} {b : β} (hx : Reads v x a)
    (hf : Reads v (f a) b) : Reads v (x >>= f) b where
  value c hc := by
    show (f (x c).1 (x c).2).1 = b
    rw [hx.value c hc]
    exact hf.value _ (hx.cache c hc)
  cache c hc := by
    show CacheOk v (f (x c).1 (x c).2).2
    rw [hx.value c hc]
    exact hf.cache _ (hx.cache c hc)

end Reads

theorem reads_sdsec (v : Volume) {lba : Word} (h : lba + 1 ≠ 0) :
    Reads v (sdsec v lba) (v.sector lba) := by
  have hsub : lba + 1 - 1 = lba := BitVec.add_sub_cancel lba 1
  have hboth (c : Cache) (hc : CacheOk v c) :
      (sdsec v lba c).1 = v.sector lba ∧ CacheOk v (sdsec v lba c).2 := by
    cases hfind : (List.range nsdcache).find? fun i => c.tag i == lba + 1 with
    | some i =>
      have htag : c.tag i = lba + 1 := by
        have hbeq := List.find?_some hfind
        exact beq_iff_eq.mp hbeq
      simp only [sdsec, hfind]
      exact ⟨by rw [hc i (htag ▸ h), htag, hsub], hc⟩
    | none =>
      simp only [sdsec, hfind, true_and]
      intro i hi
      by_cases hv : i = c.vict
      · simp [hv]
      · simp only [if_neg hv] at hi ⊢
        exact hc i hi
  exact ⟨fun c hc => (hboth c hc).1, fun c hc => (hboth c hc).2⟩

/-- A look at any sector leaves the cache right; the last that a word can name is never
    kept. -/
theorem CacheOk.look {v : Volume} {c : Cache} (hc : CacheOk v c) (lba : Word) :
    CacheOk v (sdsec v lba c).2 := by
  by_cases h : lba + 1 = 0
  · cases hfind : (List.range nsdcache).find? fun i => c.tag i == lba + 1 with
    | some i =>
      simp only [sdsec, hfind]
      exact hc
    | none =>
      simp only [sdsec, hfind]
      intro i hi
      by_cases hv : i = c.vict
      · simp only [hv, if_true, h, ne_eq, not_true_eq_false] at hi
      · simp only [if_neg hv] at hi ⊢
        exact hc i hi
  · exact (reads_sdsec v h).cache c hc

/-! ## Addresses -/

namespace Volume.WellFormed

variable {v : Volume} (hv : v.WellFormed)
include hv

theorem cluster_pos : 0 < v.cluster := by
  have := hv.spc_pos
  rw [cluster]
  omega

theorem toNat_clussz : v.clussz.toNat = v.cluster := by
  have := hv.spc_lt
  rw [clussz, cluster]
  show 512 * v.spc.toNat % 4294967296 = _
  omega

/-- The sector of an offset. -/
theorem toNat_lba (hsd : v.sd = true) {x : Nat} (hx : x % 2 ^ 32 < 512 * v.total) :
    (v.sdpart + (BitVec.ofNat 32 x >>> 9)).toNat = v.sdpart.toNat + x % 2 ^ 32 / 512 := by
  have := hv.card hsd
  rw [BitVec.toNat_add, BitVec.toNat_ushiftRight, BitVec.toNat_ofNat]
  omega

theorem lba_add_one_ne (hsd : v.sd = true) {x : Nat} (hx : x % 2 ^ 32 < 512 * v.total) :
    v.sdpart + (BitVec.ofNat 32 x >>> 9) + 1 ≠ 0 := by
  intro h
  have hnat := congrArg BitVec.toNat h
  have := hv.card hsd
  rw [BitVec.toNat_add, hv.toNat_lba hsd hx] at hnat
  change (v.sdpart.toNat + x % 2 ^ 32 / 512 + 1) % 4294967296 = 0 at hnat
  omega

/-- A byte of the sector of an offset. -/
theorem sector_lba (hsd : v.sd = true) {x j : Nat} (hx : x % 2 ^ 32 < 512 * v.total)
    (hj : x % 512 + j < 512) :
    v.sector (v.sdpart + (BitVec.ofNat 32 x >>> 9)) (x % 512 + j) = v.byte ((x + j) % 2 ^ 32) := by
  rw [sector, hv.toNat_lba hsd hx, byte, origin, if_pos hsd]
  congr 1
  omega

end Volume.WellFormed

theorem toNat_and_511 (x : Nat) : (BitVec.ofNat 32 x &&& 511).toNat = x % 512 := by
  show x % 2 ^ 32 &&& 2 ^ 9 - 1 = _
  rw [Nat.and_two_pow_sub_one_eq_mod]
  omega

/-- The bytes of an address that was computed in 32 bits. -/
theorem reads_rd8 {v : Volume} (hv : v.WellFormed) {x : Nat} (hx : x % 2 ^ 32 < 512 * v.total) :
    Reads v (rd8 v (v.fbase + BitVec.ofNat 32 x)) ((v.byte (x % 2 ^ 32)).setWidth 32) := by
  unfold rd8
  cases hsd : v.sd with
  | true =>
    have hoff : v.fbase + BitVec.ofNat 32 x - sdbase = BitVec.ofNat 32 x := by
      rw [Volume.fbase, hsd, if_pos rfl, BitVec.add_comm, BitVec.add_sub_cancel]
    apply (reads_sdsec v (hoff.symm ▸ hv.lba_add_one_ne hsd hx)).bind
    have hbyte := hv.sector_lba hsd (j := 0) hx (by omega)
    rw [Nat.add_zero] at hbyte
    simp only [hoff, toNat_and_511, hbyte]
    exact .pure _
  | false =>
    have haddr : (v.fbase + BitVec.ofNat 32 x).toNat = v.origin + x % 2 ^ 32 := by
      have := hv.bus hsd
      rw [Volume.fbase, Volume.origin, hsd, BitVec.toNat_add]
      show (v.xip.toNat + x % 2 ^ 32) % 2 ^ 32 = v.xip.toNat + x % 2 ^ 32
      omega
    rw [haddr]
    exact .pure _

theorem or_shiftLeft_eq_append {k m : Nat} (n : Nat) (a : BitVec k) (b : BitVec m) :
    a.setWidth n ||| b.setWidth n <<< k = (b ++ a).setWidth n := by
  apply BitVec.eq_of_getLsbD_eq
  intro i hi
  rw [BitVec.getLsbD_or, BitVec.getLsbD_shiftLeft, BitVec.getLsbD_setWidth, BitVec.getLsbD_setWidth,
    BitVec.getLsbD_setWidth, BitVec.getLsbD_append]
  by_cases hik : i < k
  · simp [hi, hik]
  · simp [hi, hik, BitVec.getLsbD_of_ge a i (by omega), show i - k < n by omega]

theorem word_of_bytes (b₀ b₁ b₂ b₃ : Byte) :
    (b₀.setWidth 32 ||| b₁.setWidth 32 <<< 8) |||
      (b₂.setWidth 32 ||| b₃.setWidth 32 <<< 8) <<< 16 = (b₃ ++ b₂ ++ b₁ ++ b₀ : Word) := by
  have hassoc : (b₃ ++ b₂ ++ b₁ ++ b₀ : Word) = b₃ ++ b₂ ++ (b₁ ++ b₀) :=
    BitVec.append_assoc
  rw [or_shiftLeft_eq_append, or_shiftLeft_eq_append, or_shiftLeft_eq_append, BitVec.setWidth_eq,
    hassoc]

/-! ## Chains -/

section

variable {v : Volume} {cl : Word}

theorem ofNat_toNat (w : Word) : BitVec.ofNat 32 w.toNat = w := by
  rw [BitVec.ofNat_toNat, BitVec.setWidth_eq]

theorem fatoff_add (i : Nat) :
    v.fbase + v.fatoff + cl * 4 + BitVec.ofNat 32 i =
      v.fbase + BitVec.ofNat 32 (v.fatStart + 4 * cl.toNat + i) := by
  rw [Volume.fatStart, BitVec.ofNat_add, BitVec.ofNat_add, BitVec.ofNat_mul, BitVec.ofNat_mul,
    ofNat_toNat, ofNat_toNat, Volume.fatoff, BitVec.mul_comm cl, BitVec.mul_comm v.rsvd,
    BitVec.add_assoc, BitVec.add_assoc, BitVec.add_assoc]
  rfl

/-- The entry of a cluster lies in front of the data. -/
theorem Volume.Holds.entry_le (h : v.Holds cl) (hv : v.WellFormed) :
    v.fatStart + 4 * cl.toNat + 4 ≤ v.dataStart := by
  have hpos : v.fatsz.toNat ≤ v.nfats.toNat * v.fatsz.toNat :=
    Nat.le_mul_of_pos_left _ hv.nfats_pos
  have hentry := h.entry
  rw [Volume.fatStart, Volume.dataStart]
  omega

/-- `fat_next` returns the entry. -/
theorem reads_fatNext (hv : v.WellFormed) (h : v.Holds cl) : Reads v (fatNext v cl) (v.entry cl) := by
  have hstart := h.entry_le hv
  have htotal : v.dataStart ≤ 512 * v.total := by
    have := h.data
    rw [Volume.clusterOffset] at this
    omega
  have hsmall : v.fatStart + 4 * cl.toNat + 4 < 2 ^ 32 := by
    have hlt : cl.toNat < 0x0FFFFFF8 := h.live.2
    have := hv.rsvd_lt
    rw [Volume.fatStart]
    omega
  have hbyte (i : Nat) (hi : i < 4) :
      Reads v (rd8 v (v.fbase + v.fatoff + cl * 4 + BitVec.ofNat 32 i))
        ((v.byte (v.fatStart + 4 * cl.toNat + i)).setWidth 32) := by
    have hmod : (v.fatStart + 4 * cl.toNat + i) % 2 ^ 32 = v.fatStart + 4 * cl.toNat + i :=
      Nat.mod_eq_of_lt (by omega)
    have h8 := reads_rd8 hv (x := v.fatStart + 4 * cl.toNat + i) (by omega)
    rw [hmod, ← fatoff_add] at h8
    exact h8
  have h₀ := hbyte 0 (by omega)
  have h₃ := hbyte 3 (by omega)
  rw [BitVec.add_zero] at h₀
  rw [show BitVec.ofNat 32 3 = (2 : Word) + 1 from rfl, ← BitVec.add_assoc] at h₃
  have hlo : Reads v (rd16 v (v.fbase + v.fatoff + cl * 4)) _ :=
    h₀.bind ((hbyte 1 (by omega)).bind (.pure _))
  have hhi : Reads v (rd16 v (v.fbase + v.fatoff + cl * 4 + 2)) _ :=
    (hbyte 2 (by omega)).bind (h₃.bind (.pure _))
  have hword : Reads v (rd32 v (v.fbase + v.fatoff + cl * 4)) _ := hlo.bind (hhi.bind (.pure _))
  rw [word_of_bytes] at hword
  exact hword.bind (.pure _)

theorem chain_add (j k : Nat) :
    v.chain cl (j + k) = v.chain (v.chain cl j) k := by
  induction k with
  | zero => rfl
  | succ k ih => rw [← Nat.add_assoc, Volume.chain, ih, Volume.chain]

theorem reads_skipLoop (hv : v.WellFormed) {skip : Nat} (h : ∀ k < skip, v.Holds (v.chain cl k)) :
    Reads v (skipLoop v skip cl) (v.chain cl skip) := by
  induction skip generalizing cl with
  | zero => exact .pure cl
  | succ skip ih =>
    have hcl : v.Holds cl := h 0 (by omega)
    rw [skipLoop, if_pos hcl.live, Nat.add_comm, chain_add]
    apply (reads_fatNext hv hcl).bind
    apply ih
    intro k hk
    have hnext := h (1 + k) (by omega)
    rw [chain_add] at hnext
    exact hnext

theorem reads_advanceLoop (hv : v.WellFormed) {fuel pos : Nat} (hfuel : pos / v.cluster ≤ fuel)
    (h : ∀ k < pos / v.cluster, v.Holds (v.chain cl k)) :
    Reads v (advanceLoop v fuel pos cl) (pos % v.cluster, v.chain cl (pos / v.cluster)) := by
  have hpos := hv.cluster_pos
  induction fuel generalizing pos cl with
  | zero =>
    have hlt : pos < v.cluster := by
      rw [Nat.le_zero, Nat.div_eq_zero_iff_lt hpos] at hfuel
      exact hfuel
    rw [Nat.mod_eq_of_lt hlt, Nat.div_eq_of_lt hlt]
    exact .pure _
  | succ fuel ih =>
    rw [advanceLoop]
    by_cases hle : v.cluster ≤ pos
    · have hdiv : pos / v.cluster = (pos - v.cluster) / v.cluster + 1 :=
        Nat.div_eq_sub_div hpos hle
      have hcl : v.Holds cl := h 0 (hdiv ▸ Nat.succ_pos _)
      rw [if_pos ⟨hle, hcl.live⟩, hdiv, Nat.add_comm, chain_add, Nat.mod_eq_sub_mod hle]
      apply (reads_fatNext hv hcl).bind
      apply ih (by omega)
      intro k hk
      have hnext := h (1 + k) (by omega)
      rw [chain_add] at hnext
      exact hnext
    · have hlt : pos < v.cluster := Nat.lt_of_not_le hle
      rw [if_neg (fun hc => hle hc.1), Nat.mod_eq_of_lt hlt, Nat.div_eq_of_lt hlt]
      exact .pure _

/-- The first `j` clusters of the chain lie behind one another. -/
def Contiguous (v : Volume) (cl : Word) (j : Nat) : Prop :=
  ∀ i < j, live (v.chain cl (i + 1)) ∧
    clusaddr v (v.chain cl (i + 1)) = clusaddr v (v.chain cl i) + v.clussz

theorem contiguous_zero : Contiguous v cl 0 := fun _ h => absurd h (Nat.not_lt_zero _)

theorem chain_succ' (v : Volume) (cl : Word) (i : Nat) :
    v.chain cl (i + 1) = v.chain (v.entry cl) i := by
  rw [Nat.add_comm, chain_add]
  rfl

theorem Contiguous.cons {j : Nat} (h : Contiguous v (v.entry cl) j) (hlive : live (v.entry cl))
    (hadj : clusaddr v (v.entry cl) = clusaddr v cl + v.clussz) : Contiguous v cl (j + 1) := by
  intro i hi
  cases i with
  | zero => exact ⟨hlive, hadj⟩
  | succ i =>
    rw [chain_succ' v cl (i + 1), chain_succ' v cl i]
    exact h i (by omega)

/-- The span grows by whole clusters, as long as it is short and the next cluster has
    the address behind the last. -/
theorem reads_spanLoop (hv : v.WellFormed) {want : Nat} (fuel : Nat) {span : Nat}
    (h : ∀ i, span + i * (v.cluster / 512) < want → v.Holds (v.chain cl i)) :
    ∃ j, Reads v (spanLoop v want fuel span cl) (span + j * (v.cluster / 512)) ∧
      Contiguous v cl j ∧ (0 < j → span + (j - 1) * (v.cluster / 512) < want) := by
  induction fuel generalizing span cl with
  | zero => exact ⟨0, by rw [Nat.zero_mul]; exact .pure span, contiguous_zero, by omega⟩
  | succ fuel ih =>
    rw [spanLoop]
    by_cases hlt : span < want
    · have hcl : v.Holds cl := h 0 (by omega)
      rw [if_pos hlt]
      by_cases hbreak : ¬live (v.entry cl) ∨ clusaddr v (v.entry cl) ≠ clusaddr v cl + v.clussz
      · refine ⟨0, (reads_fatNext hv hcl).bind ?_, contiguous_zero, by omega⟩
        rw [if_pos hbreak, Nat.zero_mul]
        exact .pure span
      · obtain ⟨hlive, hadj⟩ := not_or.mp hbreak
        have hnext (i : Nat) (hi : span + v.cluster / 512 + i * (v.cluster / 512) < want) :
            v.Holds (v.chain (v.entry cl) i) := by
          rw [← chain_succ']
          exact h (i + 1) (by rw [Nat.succ_mul]; omega)
        obtain ⟨j, hread, hcont, hshort⟩ := ih hnext
        refine ⟨j + 1, (reads_fatNext hv hcl).bind ?_,
          hcont.cons (not_not.mp hlive) (not_not.mp hadj), fun _ => ?_⟩
        · rw [if_neg hbreak, Nat.succ_mul, Nat.add_comm (j * _), ← Nat.add_assoc]
          exact hread
        · rw [Nat.add_sub_cancel]
          cases j with
          | zero => omega
          | succ j =>
            have := hshort (Nat.succ_pos j)
            rw [Nat.add_sub_cancel] at this
            rw [Nat.succ_mul]
            omega
    · rw [if_neg hlt]
      exact ⟨0, by rw [Nat.zero_mul]; exact .pure span, contiguous_zero, by omega⟩

end

end DmaCpu.Fat
