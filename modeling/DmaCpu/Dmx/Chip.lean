-- SUMMARY: The chip under both loaders: its bus for the C loader, and memories with buffers copied into them.
import DmaCpu.Dmx.LoadSpec
import DmaCpu.Dmx.CLoaderSpec
import DmaCpu.Emu.Classic
import DmaCpu.Emu.Compact

/-!
# The chip

What the two loaders act on is the chip: the memories, the DMA block and the
peripherals. The emulated machine has it, with bookkeeping around it; the C loader
runs on the chip alone, and a store that the bus refuses ends its run.
-/
namespace DmaCpu.Dmx

open Emu

structure Chip (δ : Type) where
  mem : Mem
  dma : Dma
  dev : δ
  cycle : Nat

variable {δ : Type} (B : Board δ) {i : Nat}

/-- The chip of a machine. -/
def chip (m : Machine δ) : Chip δ := ⟨m.mem, m.dma, m.dev, m.cycle⟩

namespace Chip

/-- A word read, from whatever is at the address. -/
def read (c : Chip δ) (addr : Word) : Except Fault Word :=
  (busRead B (Dma.regRead B.v c.dma) c.mem c.dev c.cycle addr .word).map Prod.fst

/-- A word written. -/
def write (c : Chip δ) (addr val : Word) : Except Fault (Chip δ) :=
  if addr.toNat % Width.word.bytes ≠ 0 then .error (.unaligned addr)
  else if inDMA addr then
    let norm := (aliasOp addr).1
    let final := applyAlias (Dma.regRead B.v c.dma norm) val (aliasOp addr).2
    .ok { c with dma := Dma.regWrite B.v c.dma c.cycle norm final (val ≠ 0) }
  else (busWrite B c.mem c.dev c.cycle addr val .word).map fun r => { c with mem := r.1, dev := r.2 }

def writes (c : Chip δ) : List (Word × Word) → Except Fault (Chip δ)
  | [] => .ok c
  | w :: ws => (c.write B w.1 w.2).bind fun c => c.writes ws

end Chip

/-- The chip as the C loader's bus. After a refused store nothing more happens. -/
def chipBus : Bus (Except Fault (Chip δ)) where
  read s addr := ((s.bind fun c => c.read B addr).toOption).getD 0
  write s addr val := s.bind fun c => c.write B addr val

theorem chip_write (m : Machine δ) (addr val : Word) :
    (m.write B addr val .word).map chip = (chip m).write B addr val := by
  have hwatch : ∀ n : Machine δ, n = (if addr ∈ m.watch then { m with watchHit := some addr } else m) →
      n.dma = m.dma ∧ n.mem = m.mem ∧ n.dev = m.dev ∧ n.cycle = m.cycle := by
    rintro n rfl
    split <;> exact ⟨rfl, rfl, rfl, rfl⟩
  unfold Machine.write Chip.write
  split
  next => rfl
  next =>
    generalize hn : (if addr ∈ m.watch then { m with watchHit := some addr } else m) = n
    obtain ⟨hdma, hmem, hdev, hcyc⟩ := hwatch n hn.symm
    simp only [chip, hdma, hmem, hdev, hcyc]
    split
    next => rfl
    next =>
      cases busWrite B m.mem m.dev m.cycle addr val .word with
      | error e => rfl
      | ok r => rfl

/-- A write of the machine and of its chip go the same way. -/
theorem chip_write_ok {m m' : Machine δ} {addr val : Word} (h : m.write B addr val .word = .ok m') :
    (chip m).write B addr val = .ok (chip m') := by
  rw [← chip_write, h]
  rfl

theorem chip_write_error {m : Machine δ} {addr val : Word} {f : Fault}
    (h : m.write B addr val .word = .error f) : (chip m).write B addr val = .error f := by
  rw [← chip_write, h]
  rfl

theorem chipBus_writes_error (f : Fault) (ws : List (Word × Word)) :
    (chipBus B).writes (.error f) ws = .error f := by
  induction ws with
  | nil => rfl
  | cons w ws ih => exact ih

theorem chipBus_writes (c : Chip δ) (ws : List (Word × Word)) :
    (chipBus B).writes (.ok c) ws = c.writes B ws := by
  induction ws generalizing c with
  | nil => rfl
  | cons w ws ih =>
    show (chipBus B).writes (c.write B w.1 w.2) ws = (c.write B w.1 w.2).bind _
    cases c.write B w.1 w.2 with
    | error f => exact chipBus_writes_error B f ws
    | ok c => exact ih c

theorem chipBus_writes_bind (x : Except Fault (Chip δ)) (ws : List (Word × Word)) :
    (chipBus B).writes x ws = x.bind fun c => c.writes B ws := by
  cases x with
  | error f => exact chipBus_writes_error B f ws
  | ok c => exact chipBus_writes B c ws

theorem chip_writes_append (c : Chip δ) (ws ws' : List (Word × Word)) :
    c.writes B (ws ++ ws') = (c.writes B ws).bind fun c => c.writes B ws' := by
  induction ws generalizing c with
  | nil => rfl
  | cons w ws ih =>
    rw [List.cons_append, Chip.writes, Chip.writes]
    cases c.write B w.1 w.2 with
    | error f => rfl
    | ok c => exact ih c

/-- `Poke32`s, on the chip. -/
theorem pokes_chip (m : Machine δ) (ws : List (Word × Word)) :
    ((m.pokes B ws).toOption).map chip = ((chip m).writes B ws).toOption := by
  induction ws generalizing m with
  | nil => rfl
  | cons w ws ih =>
    obtain ⟨addr, val⟩ := w
    rw [Machine.pokes, Chip.writes]
    cases hw : m.write B addr val .word with
    | error f =>
      rw [chip_write_error B hw]
      rfl
    | ok m₁ =>
      rw [chip_write_ok B hw]
      exact ih m₁

/-! ## Memories with buffers copied into them -/

/-- Buffers copied one after the other, each to its offset. -/
def blitAll (r : Ram) (items : List (Nat × List Byte)) : Ram :=
  items.foldl (fun r it => blit r it.1 it.2) r

/-- The offset and the length of each buffer. -/
def shape (items : List (Nat × List Byte)) : List (Nat × Nat) :=
  items.map fun it => (it.1, it.2.length)

/-- Ranges within a memory, disjoint. -/
structure Fit (size : Nat) (sh : List (Nat × Nat)) : Prop where
  inside : ∀ p ∈ sh, p.1 + p.2 ≤ size
  apart : sh.Pairwise fun a b => a.1 + a.2 ≤ b.1 ∨ b.1 + b.2 ≤ a.1

def Covers (p : Nat × Nat) (x : Nat) : Prop := p.1 ≤ x ∧ x < p.1 + p.2

variable {b : List Byte} {off : Nat} {w : Nat}

section Blits

variable {r : Ram} {items : List (Nat × List Byte)}

theorem size_blitAll : (blitAll r items).size = r.size := by
  induction items generalizing r with
  | nil => rfl
  | cons it items ih => exact ih

theorem byte_blitAll_of_none {x : Nat} (h : ∀ p ∈ shape items, ¬Covers p x) :
    (blitAll r items).byte x = r.byte x := by
  induction items generalizing r with
  | nil => rfl
  | cons it items ih =>
    obtain ⟨hit, hrest⟩ := List.forall_mem_cons.mp h
    refine (ih hrest).trans ?_
    exact if_neg fun hx => hit ⟨hx.1, hx.2.1⟩

theorem byte_blitAll_of_mem (hfit : Fit r.size (shape items)) (hmem : (off, b) ∈ items) {x : Nat}
    (hx : Covers (off, b.length) x) : (blitAll r items).byte x = b.getD (x - off) 0 := by
  induction items generalizing r with
  | nil => cases hmem
  | cons it items ih =>
    obtain ⟨hin, hinside⟩ := List.forall_mem_cons.mp hfit.inside
    obtain ⟨happ, hapart⟩ := List.pairwise_cons.mp hfit.apart
    rcases List.mem_cons.mp hmem with rfl | hmem
    · have hnone : ∀ p ∈ shape items, ¬Covers p x := by
        intro p hp hcov
        rcases happ p hp with h | h
        · exact absurd (Nat.lt_of_lt_of_le hx.2 h) (Nat.not_lt.mpr hcov.1)
        · exact absurd (Nat.lt_of_lt_of_le hcov.2 h) (Nat.not_lt.mpr hx.1)
      exact (byte_blitAll_of_none hnone).trans
        (if_pos ⟨hx.1, hx.2, Nat.lt_of_lt_of_le hx.2 hin⟩)
    · exact ih (r := blit r it.1 it.2) ⟨hinside, hapart⟩ hmem

theorem shape_set {b' : List Byte} (hi : items[i]? = some (off, b))
    (hlen : b'.length = b.length) : shape (items.set i (off, b')) = shape items := by
  unfold shape
  apply List.ext_getElem?
  intro j
  rw [List.getElem?_map, List.getElem?_map, List.getElem?_set]
  split
  · rename_i hij
    subst hij
    obtain ⟨hlt, _⟩ := List.getElem?_eq_some_iff.mp hi
    rw [if_pos hlt, hi, Option.map_some, Option.map_some, hlen]
  · rfl

/-- A word stored into a buffer in memory is the word put into the buffer. -/
theorem store_blitAll (hfit : Fit r.size (shape items)) (hi : items[i]? = some (off, b)) (hw : w + 4 ≤ b.length) (v : Word) :
    (blitAll r items).store (off + w) v .word = blitAll r (items.set i (off, put32 b w v)) := by
  have hshape := shape_set hi (length_put32 b w v)
  have hfit' : Fit r.size (shape (items.set i (off, put32 b w v))) := by
    rw [hshape]
    exact hfit
  obtain ⟨hlt, _⟩ := List.getElem?_eq_some_iff.mp hi
  have hmem := List.mem_of_getElem? hi
  have hmem' : (off, put32 b w v) ∈ items.set i (off, put32 b w v) := List.mem_set hlt _
  apply Ram.ext_byte
  · rw [Ram.size_store, size_blitAll, size_blitAll]
  intro x
  rw [Ram.byte_store_word]
  by_cases hcov : Covers (off, b.length) x
  · have hcov' : Covers (off, (put32 b w v).length) x := by rwa [length_put32]
    rw [byte_blitAll_of_mem hfit' hmem' hcov', byte_blitAll_of_mem hfit hmem hcov,
      getD_put32 b w v (by simp only [Covers] at hcov; omega)]
    simp only [Covers] at hcov
    by_cases hin : w ≤ x - off ∧ x - off < w + 4
    · rw [if_pos hin, if_pos (by omega), show x - (off + w) = x - off - w by omega]
    · rw [if_neg hin, if_neg (by omega)]
  · have hout : ¬(off + w ≤ x ∧ x < off + w + 4) := by
      simp only [Covers] at hcov
      omega
    rw [if_neg hout]
    by_cases hother : ∃ it ∈ items, Covers (it.1, it.2.length) x
    · obtain ⟨⟨off', b'⟩, hit, hcov'⟩ := hother
      obtain ⟨j, hj⟩ := List.mem_iff_getElem?.mp hit
      have hij : i ≠ j := by
        rintro rfl
        rw [hi] at hj
        cases hj
        exact hcov hcov'
      have hit' : (off', b') ∈ items.set i (off, put32 b w v) := by
        apply List.mem_of_getElem? (i := j)
        rw [List.getElem?_set_ne hij, hj]
      rw [byte_blitAll_of_mem hfit hit hcov', byte_blitAll_of_mem hfit' hit' hcov']
    · have hnone : ∀ p ∈ shape items, ¬Covers p x := by
        intro p hp hcov'
        obtain ⟨it, hit, rfl⟩ := List.mem_map.mp hp
        exact hother ⟨it, hit, hcov'⟩
      rw [byte_blitAll_of_none hnone, byte_blitAll_of_none (hshape ▸ hnone)]

theorem load_blitAll (hfit : Fit r.size (shape items)) (hmem : (off, b) ∈ items)
    (hw : w + 4 ≤ b.length) : (blitAll r items).load (off + w) .word = le32 b w := by
  have hbyte : ∀ k < 4, (blitAll r items).byte (off + w + k) = b.getD (w + k) 0 := by
    intro k hk
    rw [byte_blitAll_of_mem hfit hmem ⟨by omega, by omega⟩,
      show off + w + k - off = w + k by omega]
  unfold Ram.load le32
  rw [hbyte 3 (by omega), hbyte 2 (by omega), hbyte 1 (by omega),
    show (blitAll r items).byte (off + w) = b.getD w 0 from hbyte 0 (by omega)]

/-- The words of a buffer stored in order are the buffer copied. -/
theorem store_words (r : Ram) (off : Nat) (data : List Byte) {k : Nat} (hk : 4 * k = data.length)
    (hin : off + data.length ≤ r.size) :
    (List.range k).foldl (fun r n => r.store (off + 4 * n) (le32 data (4 * n)) .word) r =
      blit r off data := by
  have hbytes : ∀ j ≤ k, ((List.range j).foldl
        (fun r n => r.store (off + 4 * n) (le32 data (4 * n)) .word) r).size = r.size ∧
      ∀ x, ((List.range j).foldl
          (fun r n => r.store (off + 4 * n) (le32 data (4 * n)) .word) r).byte x =
        if off ≤ x ∧ x < off + 4 * j then data.getD (x - off) 0 else r.byte x := by
    intro j
    induction j with
    | zero =>
      intro _
      exact ⟨rfl, fun x => (if_neg (by omega)).symm⟩
    | succ j ih =>
      intro hj
      obtain ⟨hsize, hbyte⟩ := ih (by omega)
      rw [List.range_succ, List.foldl_append, List.foldl_cons, List.foldl_nil]
      refine ⟨by rw [Ram.size_store]; exact hsize, fun x => ?_⟩
      rw [Ram.byte_store_word]
      split
      · rw [if_pos (by omega), getD_eq_extract data (x - off)]
        rw [show 4 * ((x - off) / 4) = 4 * j by omega, show (x - off) % 4 = x - (off + 4 * j) by omega]
      · rw [hbyte x]
        by_cases hlt : off ≤ x ∧ x < off + 4 * j
        · rw [if_pos hlt, if_pos (by omega)]
        · rw [if_neg hlt, if_neg (by omega)]
  obtain ⟨hsize, hbyte⟩ := hbytes k (Nat.le_refl k)
  refine Ram.ext_byte (s := blit r off data) hsize fun x => ?_
  rw [hbyte x]
  show _ = if off ≤ x ∧ x < off + data.length ∧ x < r.size then data.getD (x - off) 0 else r.byte x
  by_cases hx : off ≤ x ∧ x < off + 4 * k
  · rw [if_pos hx, if_pos (by omega)]
  · rw [if_neg hx, if_neg (by omega)]

end Blits

/-! ## SRAM -/

theorem mem_ext {mem mem' : Mem} (hsram : mem.sram = mem'.sram) (hflash : mem.flash = mem'.flash)
    (hpsram : mem.psram = mem'.psram) : mem = mem' := by
  cases mem'
  cases hsram
  cases hflash
  cases hpsram
  rfl

/-- Buffers copied into SRAM. -/
def blitSrams (mem : Mem) (items : List (Nat × List Byte)) : Mem :=
  items.foldl (fun mem it => blitSram mem it.1 it.2) mem

theorem blitSrams_cons (mem : Mem) (it : Nat × List Byte) (items : List (Nat × List Byte)) :
    blitSrams mem (it :: items) = blitSrams (blitSram mem it.1 it.2) items := rfl

theorem size_blitSram (mem : Mem) (data : List Byte) :
    (blitSram mem off data).sram.size = mem.sram.size := rfl

theorem blitSrams_eq (mem : Mem) (items : List (Nat × List Byte)) :
    (blitSrams mem items).sram = blitAll mem.sram items ∧ (blitSrams mem items).flash = mem.flash ∧
      (blitSrams mem items).psram = mem.psram := by
  induction items generalizing mem with
  | nil => exact ⟨rfl, rfl, rfl⟩
  | cons it items ih => exact ih (blitSram mem it.1 it.2)

theorem size_blitSrams (mem : Mem) (items : List (Nat × List Byte)) :
    (blitSrams mem items).sram.size = mem.sram.size := by
  rw [(blitSrams_eq mem items).1, size_blitAll]

theorem size_sram_store (mem : Mem) (v : Word) (w : Width) :
    (mem.store .sram off v w).sram.size = mem.sram.size := rfl

theorem store_blitSrams {mem : Mem} {items : List (Nat × List Byte)}
    (hfit : Fit mem.sram.size (shape items)) (hi : items[i]? = some (off, b))
    (hw : w + 4 ≤ b.length) (v : Word) : (blitSrams mem items).store .sram (off + w) v .word =
      blitSrams mem (items.set i (off, put32 b w v)) := by
  obtain ⟨hsram, hflash, hpsram⟩ := blitSrams_eq mem items
  obtain ⟨hsram', hflash', hpsram'⟩ := blitSrams_eq mem (items.set i (off, put32 b w v))
  apply mem_ext
  · rw [hsram', ← store_blitAll hfit hi hw v, ← hsram]
    rfl
  · exact hflash.trans hflash'.symm
  · exact hpsram.trans hpsram'.symm

/-- A buffer with its offset in SRAM. -/
def sramItem (it : Word × List Byte) : Nat × List Byte := (it.1.toNat - sramBase, it.2)

/-- `LoadBytes` on buffers for SRAM. -/
theorem loadAll_of_sram {items : List (Word × List Byte)} {h : Host δ}
    (ht : TakesAll h.m.mem h.loaded (items.map spanOf))
    (hsram : ∀ it ∈ items, spanInSRAM h.m.mem (spanOf it).1 (spanOf it).2) :
    ∃ loaded, loadAll items h =
      .ok ⟨{ h.m with mem := blitSrams h.m.mem (items.map sramItem) }, loaded⟩ := by
  induction items generalizing h with
  | nil => exact ⟨h.loaded, rfl⟩
  | cons it items ih =>
    obtain ⟨addr, data⟩ := it
    obtain ⟨htake, hrest⟩ := ht
    obtain ⟨hin, hins⟩ := List.forall_mem_cons.mp hsram
    obtain ⟨off, hitem, htaken⟩ : ∃ off, sramItem (addr, data) = (off, data) ∧
        taken h.m.mem addr data = blitSram h.m.mem off data :=
      ⟨_, rfl, if_neg (not_spanInFlash_of_sram hin)⟩
    have hsame := sameSizes_blitSram h.m.mem off data
    have hins' : ∀ it ∈ items, spanInSRAM (blitSram h.m.mem off data) (spanOf it).1 (spanOf it).2 := by
      intro it hit
      have := hins it hit
      unfold spanInSRAM at this ⊢
      rwa [hsame.1]
    obtain ⟨loaded, hload⟩ := ih (h := ⟨{ h.m with mem := blitSram h.m.mem off data },
      h.loaded ++ [(spanOf (addr, data)).range]⟩) ((takesAll_congr hsame).mpr hrest) hins'
    rw [loadAll, loadBytes_of_takes h addr data htake, htaken, List.map_cons, hitem]
    exact ⟨loaded, hload⟩

/-- The first `k` words of a buffer, stored in order. -/
def storeWords (mem : Mem) (off : Nat) (data : List Byte) (k : Nat) : Mem :=
  (List.range k).foldl (fun mem n => mem.store .sram (off + 4 * n) (le32 data (4 * n)) .word) mem

theorem storeWords_succ (mem : Mem) (data : List Byte) (k : Nat) :
    storeWords mem off data (k + 1) =
      (storeWords mem off data k).store .sram (off + 4 * k) (le32 data (4 * k)) .word := by
  rw [storeWords, List.range_succ, List.foldl_append]
  rfl

theorem storeWords_eq (mem : Mem) (off : Nat) (data : List Byte) {k : Nat}
    (hk : 4 * k = data.length) (hin : off + data.length ≤ mem.sram.size) :
    storeWords mem off data k = blitSram mem off data := by
  have hparts : ∀ (ns : List Nat) (mem : Mem),
      let mem' := ns.foldl
        (fun mem n => mem.store .sram (off + 4 * n) (le32 data (4 * n)) .word) mem
      mem'.sram = ns.foldl (fun r n => r.store (off + 4 * n) (le32 data (4 * n)) .word) mem.sram ∧
        mem'.flash = mem.flash ∧ mem'.psram = mem.psram := by
    intro ns
    induction ns with
    | nil => exact fun mem => ⟨rfl, rfl, rfl⟩
    | cons n ns ih => exact fun mem => ih (mem.store .sram (off + 4 * n) (le32 data (4 * n)) .word)
  obtain ⟨hsram, hflash, hpsram⟩ := hparts (List.range k) mem
  exact mem_ext (hsram.trans (store_words mem.sram off data hk hin)) hflash hpsram

/-- A word of SRAM at an aligned address. -/
structure SramWord (mem : Mem) (addr : Word) : Prop where
  aligned : addr.toNat % 4 = 0
  base : sramBase ≤ addr.toNat
  inside : addr.toNat - sramBase + 4 ≤ mem.sram.size

namespace SramWord

variable {B} {c : Chip δ} {addr : Word} (h : SramWord c.mem addr)

include h

theorem inSRAM : c.mem.inSRAM addr .word = true :=
  (Mem.inSRAM_iff c.mem addr .word).mpr ⟨h.base, h.inside⟩

theorem read : c.read B addr = .ok (c.mem.sram.load (addr.toNat - sramBase) .word) := by
  have hal : ¬addr.toNat % Width.word.bytes ≠ 0 := not_not.mpr h.aligned
  unfold Chip.read busRead
  rw [if_neg hal, if_pos h.inSRAM]
  rfl

theorem write (val : Word) : c.write B addr val =
    .ok { c with mem := c.mem.store .sram (addr.toNat - sramBase) val .word } := by
  have hal : ¬addr.toNat % Width.word.bytes ≠ 0 := not_not.mpr h.aligned
  have hdma : ¬inDMA addr = true := by
    have hinside := h.inside
    have hsize := c.mem.sram_le
    rw [inDMA_iff]
    simp only [sramBase, dmaBase] at *
    omega
  unfold Chip.write busWrite
  rw [if_neg hal, if_neg hdma, if_pos h.inSRAM]
  rfl

end SramWord

end DmaCpu.Dmx
