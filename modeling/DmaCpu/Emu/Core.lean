-- SUMMARY: The machine word by word: what one transfer does once pacing, windows and bursts are set aside.
import DmaCpu.Emu.Machine

/-!
# Words

A transfer depends on the memories, the registers, the peripherals and the
cycle. The credits, the timers' phases, the grant cursors, the profile and the
arbiter's memory decide only when it happens. `Core` is the machine without
those, and `Core.move` is one transfer on it, over the bus.
-/
namespace DmaCpu.Emu

variable {δ : Type} (B : Board δ) (v : Variant) {block : Nat} {forWrite : Bool} {addr : Word}

/-! ## Forgetting the pace -/

namespace Channel

@[simps] def erase (c : Channel) : Channel := { c with credit := 0 }

variable (c : Channel)

@[simp] theorem erase_chainTo : c.erase.chainTo v = c.chainTo v := rfl
@[simp] theorem erase_swap : c.erase.swap v = c.swap v := rfl
@[simp] theorem erase_free : c.free.erase = c.erase.free := rfl
@[simp] theorem erase_latch : (c.latch v).erase = c.erase.latch v := rfl
@[simp] theorem erase_launch : (c.launch v).erase = c.erase.launch v := rfl

end Channel

namespace Dma

/-- The register block without credits and timer phases. -/
@[simps] def erase (d : Dma) : Dma :=
  { d with
    ch := fun i => (d.ch i).erase
    timers := fun i => { reg := (d.timers i).reg } }

variable (d : Dma)

@[simp] theorem erase_sniffOut : d.erase.sniffOut = d.sniffOut := rfl
@[simp] theorem erase_erase : d.erase.erase = d.erase := rfl

@[simp] theorem erase_setCh (i : Nat) (c : Channel) :
    (d.setCh i c).erase = d.erase.setCh i c.erase := by
  unfold erase setCh
  congr 1
  funext j
  by_cases h : j = i
  · subst h; simp
  · simp [Function.update_of_ne h]

@[simp] theorem erase_raise (i : Nat) : (d.raise i).erase = d.erase.raise i := rfl

theorem erase_ite {p : Prop} [Decidable p] (d₁ d₂ : Dma) :
    (if p then d₁ else d₂).erase = if p then d₁.erase else d₂.erase := apply_ite erase p d₁ d₂

@[simp] theorem erase_finish (i : Nat) : (d.finish v i).erase = d.erase.finish v i := by
  unfold finish
  rw [erase_ite, erase_raise, erase_setCh]
  rfl

section
variable {trig : Dma → Nat → Bool → Word → Dma}
  (htrig : ∀ d i r q, (trig d i r q).erase = trig d.erase i r q)
include htrig

theorem erase_chain (i next : Nat) :
    (chain v trig d i next).erase = chain v trig d.erase i next := by
  unfold chain
  rw [erase_ite, htrig, erase_ch, Channel.erase_ctrl]

theorem erase_again (i : Nat) : (again trig d i).erase = again trig d.erase i := by
  unfold again
  rw [erase_ite, htrig, erase_ch, Channel.erase_ctrl, Channel.erase_mode]

theorem erase_completeWith (i : Nat) :
    (completeWith v trig d i).erase = completeWith v trig d.erase i := by
  unfold completeWith
  rw [erase_again _ htrig, erase_chain v _ htrig, erase_finish, erase_ch, Channel.erase_chainTo]

end

theorem erase_trigger (fuel : Nat) (d : Dma) (i : Nat) (r : Bool) (q : Word) :
    (trigger v fuel d i r q).erase = trigger v fuel d.erase i r q := by
  induction fuel generalizing d i r q with
  | zero =>
    unfold trigger
    simp only [erase_ite, erase_setCh, erase_raise, Channel.erase_latch, Channel.erase_launch]
    rfl
  | succ fuel ih =>
    unfold trigger
    simp only [erase_ite, erase_setCh, erase_raise, Channel.erase_latch, Channel.erase_launch,
      erase_completeWith v _ ih]
    rfl

@[simp] theorem erase_complete (i : Nat) : (complete v d i).erase = complete v d.erase i :=
  erase_completeWith v d (erase_trigger v zeroDepthMax) i

@[simp] theorem erase_conclude (i : Nat) : (d.conclude v i).erase = d.erase.conclude v i := by
  unfold conclude
  rw [erase_ite, erase_complete]
  rfl

theorem erase_writeChan (c : Channel) (reg : Reg) (x : Word) :
    (writeChan v c reg x).erase = writeChan v c.erase reg x := by
  cases reg <;> rfl

@[simp] theorem erase_settle (i : Nat) (writeAddr : Word) :
    (settle v d i writeAddr).erase = settle v d.erase i writeAddr := by
  unfold settle
  simp only [erase_ite, erase_setCh, erase_conclude]
  rfl

@[simp] theorem erase_sniff (i : Nat) (datum : Word) (w : Width) :
    (sniff d i datum w).erase = sniff d.erase i datum w := by
  unfold sniff
  rw [erase_ite]
  rfl

@[simp] theorem erase_deliver (i : Nat) (writeAddr datum : Word) (w : Width) :
    (deliver v d i writeAddr datum w).erase = deliver v d.erase i writeAddr datum w := by
  unfold deliver
  rw [erase_settle, erase_ite, erase_sniff]
  rfl

@[simp] theorem regRead_erase (off : Nat) : regRead v d.erase off = regRead v d off := by
  have hchan : ∀ i, chanRead v (d.erase.ch i) (off % chanStride) =
      chanRead v (d.ch i) (off % chanStride) := fun i => by
    rfl
  have hirq : d.erase.irqRead off = d.irqRead off := by
    unfold irqRead
    split <;> rfl
  unfold regRead
  simp only [hchan, hirq, erase_intr, erase_timers_reg, erase_sniffCtrl, erase_sniffOut]

theorem regRead_erase_eq : regRead v d.erase = regRead v d := funext (regRead_erase v d)

theorem erase_foldl {f : Dma → Nat → Dma} (hf : ∀ d i, (f d i).erase = f d.erase i)
    (l : List Nat) (d : Dma) : (l.foldl f d).erase = l.foldl f d.erase := by
  induction l generalizing d with
  | nil => rfl
  | cons i l ih => rw [List.foldl_cons, List.foldl_cons, ih, hf]

@[simp] theorem erase_storeReg (i reg : Nat) (val : Word) :
    (d.storeReg v i reg val).erase = d.erase.storeReg v i reg val := by
  unfold storeReg
  cases regOf reg with
  | none => rfl
  | some r =>
    rw [erase_setCh]
    cases r <;> rfl

@[simp] theorem erase_chanWrite (i reg : Nat) (val : Word) (r : Bool) :
    (d.chanWrite v i reg val r).erase = d.erase.chanWrite v i reg val r := by
  unfold chanWrite
  rw [erase_ite, erase_trigger, erase_storeReg, erase_ch, Channel.erase_ctrl]

@[simp] theorem erase_irqWrite (off : Nat) (val : Word) :
    (d.irqWrite off val).erase = d.erase.irqWrite off val := by
  unfold irqWrite
  split <;> rfl

theorem erase_timerWrite (now i : Nat) (val : Word) :
    (d.timerWrite now i val).erase = (d.erase.timerWrite now i val).erase := by
  unfold timerWrite erase
  congr 1
  funext j
  by_cases h : j = i
  · subst h
    simp [Timer.recalc, apply_ite Timer.reg]
  · simp [Function.update_of_ne h]

@[simp] theorem erase_multiTrigger (val : Word) :
    (d.multiTrigger v val).erase = d.erase.multiTrigger v val :=
  erase_foldl (fun d i => by rw [erase_trigger]; rfl) _ _

@[simp] theorem erase_chanAbort (val : Word) :
    (d.chanAbort v val).erase = d.erase.chanAbort v val :=
  erase_foldl (fun d i => by rw [erase_setCh]; rfl) _ _

/-- A register write is the same for a block and its erasure; a write to a timer
    also restarts its phase, so the erasure is taken again. -/
theorem erase_regWrite (now off : Nat) (val : Word) (r : Bool) :
    (regWrite v d now off val r).erase = (regWrite v d.erase now off val r).erase := by
  unfold regWrite
  simp only [erase_ite, erase_chanWrite, erase_irqWrite, erase_multiTrigger, erase_chanAbort,
    erase_erase, erase_timerWrite d]
  rfl

end Dma

/-! ## Windows -/

/-- Memories of the same shape. -/
structure Mem.Alike (mem mem' : Mem) : Prop where
  sram : mem'.sram.size = mem.sram.size
  flash : mem'.flash.size = mem.flash.size
  psram : mem'.psram.size = mem.psram.size

theorem Mem.Alike.refl (mem : Mem) : mem.Alike mem := ⟨rfl, rfl, rfl⟩

theorem Mem.Alike.store {mem mem' : Mem} (h : mem.Alike mem') (r : Mem.Region) (off : Nat)
    (val : Word) (w : Width) : mem.Alike (mem'.store r off val w) := by
  cases r
  · exact ⟨h.sram, h.flash, h.psram⟩
  · exact ⟨h.sram, h.flash, h.psram⟩
  · exact ⟨h.sram, h.flash, h.psram⟩

/-- Every aligned access within `[lo, hi)` goes to one memory and to nothing else,
    whatever the memories of that shape hold. -/
structure Backs (mem : Mem) (dev : δ) (forWrite : Bool) (r : Mem.Region) (lo hi : Nat) : Prop where
  top : hi ≤ 2 ^ 32
  read : ∀ (mem' : Mem) (regs : Nat → Word) (cycle : Nat) (a : Word) (w : Width),
    mem.Alike mem' → lo ≤ a.toNat → a.toNat + w.bytes ≤ hi → a.toNat % w.bytes = 0 →
    busRead B regs mem' dev cycle a w = .ok ((mem'.region r).load (a.toNat - lo) w, dev)
  write : forWrite = true → ∀ (mem' : Mem) (cycle : Nat) (a val : Word) (w : Width),
    mem.Alike mem' → lo ≤ a.toNat → a.toNat + w.bytes ≤ hi →
    inDMA a = false ∧
      busWrite B mem' dev cycle a val w = .ok (mem'.store r (a.toNat - lo) val w, dev)

section
variable (mem : Mem) (a : Word) (w : Width)

theorem Mem.inSRAM_iff : mem.inSRAM a w = true ↔
    sramBase ≤ a.toNat ∧ a.toNat - sramBase + w.bytes ≤ mem.sram.size := by
  simp [Mem.inSRAM]

theorem Mem.inPSRAM_iff : mem.inPSRAM a w = true ↔
    ((xipBase ≤ a.toNat ∧ a.toNat < xipBase + 0x08000000) ∧ psramWinOff ≤ Mem.xipOff a) ∧
      Mem.xipOff a - psramWinOff + w.bytes ≤ mem.psram.size := by
  simp [Mem.inPSRAM]

theorem Mem.inFlash_iff : mem.inFlash a w = true ↔
    (xipBase ≤ a.toNat ∧ a.toNat - xipBase + w.bytes ≤ mem.flash.size) ∨
      (xipBase + 0x04000000 ≤ a.toNat ∧
        a.toNat - (xipBase + 0x04000000) + w.bytes ≤ mem.flash.size) := by
  simp [Mem.inFlash]

theorem inDMA_iff : inDMA a = true ↔ dmaBase ≤ a.toNat ∧ a.toNat < dmaBase + 0x4000 := by
  simp [inDMA]

end

/-- The DMA window lies above the memories. -/
theorem inDMA_of_lt {a : Word} (h : a.toNat < dmaBase) : inDMA a = false := by
  rw [← Bool.not_eq_true, inDMA_iff]
  omega

theorem backs_sram (mem : Mem) (dev : δ) (forWrite : Bool) :
    Backs B mem dev forWrite .sram sramBase (sramBase + mem.sram.size) := by
  have hsize := mem.sram_le
  refine ⟨by simp only [sramBase]; omega, ?_, ?_⟩
  · intro mem' regs cycle a w hlike hlo hhi hal
    have hin : mem'.inSRAM a w = true := (Mem.inSRAM_iff ..).2 (by rw [hlike.sram]; omega)
    unfold busRead
    rw [if_neg (by omega), if_pos hin]
    rfl
  · intro _ mem' cycle a val w hlike hlo hhi
    have hin : mem'.inSRAM a w = true := (Mem.inSRAM_iff ..).2 (by rw [hlike.sram]; omega)
    refine ⟨inDMA_of_lt ?_, ?_⟩
    · simp only [dmaBase, sramBase] at *
      omega
    · unfold busWrite
      rw [if_pos hin]

/-- An address in the lower half of one of the two blocks of the XIP window. -/
theorem xip_addr {a : Word}
    (hblock : block = xipBase ∨ block = xipBase + 0x04000000) (hlo : block ≤ a.toNat)
    (hhi : a.toNat < block + 0x02000000) :
    Mem.xipOff a = a.toNat - block ∧ xipBase ≤ a.toNat ∧ a.toNat < sramBase := by
  simp only [Mem.xipOff, xipBase, sramBase] at *
  omega

theorem not_inSRAM_of_lt (mem : Mem) {a : Word} (w : Width) (h : a.toNat < sramBase) :
    ¬mem.inSRAM a w = true := by
  rw [Mem.inSRAM_iff]
  omega

theorem backs_psram (mem : Mem) {dev : δ} (forWrite : Bool)
    (hq : B.qmiDirect dev = false) (hblock : block = xipBase ∨ block = xipBase + 0x04000000) :
    Backs B mem dev forWrite .psram (block + psramWinOff)
      (block + psramWinOff + mem.psram.size) := by
  have hflash := mem.flash_le
  have hsize := mem.psram_le
  -- where such an address falls in the decoding order
  have hwhere : ∀ (mem' : Mem) (a : Word) (w : Width), mem.Alike mem' →
      block + psramWinOff ≤ a.toNat →
      a.toNat + w.bytes ≤ block + psramWinOff + mem.psram.size →
      a.toNat < sramBase ∧ ¬mem'.inFlash a w = true ∧ mem'.inPSRAM a w = true ∧
        Mem.xipOff a - psramWinOff = a.toNat - (block + psramWinOff) := by
    intro mem' a w hlike hlo hhi
    have hpos := w.bytes_pos
    obtain ⟨hoff, hge, hlt⟩ := xip_addr hblock (by omega : block ≤ a.toNat)
      (by simp only [psramWinOff] at *; omega)
    refine ⟨hlt, ?_, (Mem.inPSRAM_iff ..).2 ?_, by omega⟩
    · rw [Mem.inFlash_iff, hlike.flash]
      simp only [psramWinOff, xipBase] at *
      omega
    · rw [hlike.psram]
      simp only [psramWinOff, xipBase, sramBase] at *
      omega
  refine ⟨by simp only [xipBase, psramWinOff] at *; omega, ?_, ?_⟩
  · intro mem' regs cycle a w hlike hlo hhi hal
    obtain ⟨hlt, hnf, hin, hoff⟩ := hwhere mem' a w hlike hlo hhi
    unfold busRead
    rw [if_neg (by omega), if_neg (not_inSRAM_of_lt mem' w hlt),
      if_neg (by rw [inDMA_of_lt (by simp only [dmaBase, sramBase] at *; omega)]; decide),
      if_neg hnf, if_pos hin, hq, hoff]
    rfl
  · intro _ mem' cycle a val w hlike hlo hhi
    obtain ⟨hlt, _, hin, hoff⟩ := hwhere mem' a w hlike hlo hhi
    refine ⟨inDMA_of_lt (by simp only [dmaBase, sramBase] at *; omega), ?_⟩
    unfold busWrite
    rw [if_neg (not_inSRAM_of_lt mem' w hlt), if_pos hin, hq, if_neg (by decide), hoff]

theorem backs_flash (mem : Mem) {dev : δ} (hq : B.qmiDirect dev = false)
    (hblock : block = xipBase ∨ block = xipBase + 0x04000000) :
    Backs B mem dev false .flash block (block + mem.flash.size) := by
  have hflash := mem.flash_le
  refine ⟨by simp only [xipBase, psramWinOff] at *; omega, ?_, fun h => by simp at h⟩
  intro mem' regs cycle a w hlike hlo hhi hal
  obtain ⟨hoff, hge, hlt⟩ := xip_addr hblock hlo
    (by simp only [psramWinOff] at *; omega)
  have hin : mem'.inFlash a w = true := by
    rw [Mem.inFlash_iff, hlike.flash]
    omega
  unfold busRead
  rw [if_neg (by omega), if_neg (not_inSRAM_of_lt mem' w hlt),
    if_neg (by rw [inDMA_of_lt (by simp only [dmaBase, sramBase] at *; omega)]; decide),
    if_pos hin, hq, hoff]
  rfl

/-- A resolved window says truly where its addresses are served. -/
theorem Machine.resolveWin_backs (m : Machine δ)
    {r : Mem.Region} (h : (m.resolveWin B addr forWrite).buf = some r) :
    Backs B m.mem m.dev forWrite r (m.resolveWin B addr forWrite).lo
      (m.resolveWin B addr forWrite).hi := by
  unfold resolveWin at h ⊢
  simp only at h ⊢
  split at h
  next hs => rw [if_pos hs]; cases h; exact backs_sram ..
  next hs =>
    rw [if_neg hs]
    split at h
    next => cases h
    next hmmio =>
      rw [if_neg hmmio]
      split at h
      next hx =>
        simp only [Bool.and_eq_true, Bool.not_eq_true', decide_eq_true_eq] at hx
        obtain ⟨hq, hxip⟩ := hx
        have hblock : addr.toNat - addr.toNat % 0x04000000 = xipBase ∨
            addr.toNat - addr.toNat % 0x04000000 = xipBase + 0x04000000 := by
          simp only [xipBase] at *
          omega
        rw [if_pos (by simp [hq, hxip])]
        split at h
        next hp => rw [if_pos hp]; cases h; exact backs_psram B _ _ hq hblock
        next hp =>
          rw [if_neg hp]
          split at h
          next hf =>
            simp only [Bool.and_eq_true, Bool.not_eq_true', decide_eq_true_eq] at hf
            obtain ⟨rfl, hlt⟩ := hf
            rw [if_pos (by simp [hlt])]
            cases h
            exact backs_flash B _ hq hblock
          next => cases h
      next => cases h

/-! ## One word -/

/-- What a word transfer reads and writes. -/
structure Core (δ : Type) where
  dma : Dma
  mem : Mem
  dev : δ
  cycle : Nat

def Machine.core (m : Machine δ) : Core δ := ⟨m.dma.erase, m.mem, m.dev, m.cycle⟩

namespace Core

def get (c : Core δ) (addr : Word) (w : Width) : Except Fault (Word × Core δ) :=
  (busRead B (c.dma.regRead B.v) c.mem c.dev c.cycle addr w).map
    fun r => (r.1, { c with dev := r.2 })

def put (c : Core δ) (addr val : Word) (w : Width) : Except Fault (Core δ) :=
  if addr.toNat % w.bytes ≠ 0 then .error (.unaligned addr)
  else if inDMA addr then
    let norm := (aliasOp addr).1
    let final := applyAlias (c.dma.regRead B.v norm) val (aliasOp addr).2
    .ok { c with dma := (c.dma.regWrite B.v c.cycle norm final (val ≠ 0)).erase }
  else
    (busWrite B c.mem c.dev c.cycle addr val w).map fun r => { c with mem := r.1, dev := r.2 }

/-- One word of channel `i`. -/
def move (c : Core δ) (i : Nat) : Except Fault (Core δ) := do
  let ch := c.dma.ch i
  match ctrlDataSize ch.ctrl with
  | none => .error (.reservedSize i)
  | some w =>
    let (datum, c) ← c.get B ch.readAddr w
    let datum := ch.swap B.v datum w
    let c ← c.put B ch.writeAddr datum w
    return { c with dma := c.dma.deliver B.v i ch.writeAddr datum w }

end Core

namespace Machine

variable (m : Machine δ)

/-- A direct access is one the bus would have served the same way. -/
theorem window_backs {w : Width} {r : Mem.Region} {off : Nat}
    (h : m.window B addr w forWrite = some (r, off)) :
    Backs B m.mem m.dev forWrite r (m.resolveWin B addr forWrite).lo
        (m.resolveWin B addr forWrite).hi ∧
      (m.resolveWin B addr forWrite).lo ≤ addr.toNat ∧
      addr.toNat + w.bytes ≤ (m.resolveWin B addr forWrite).hi ∧ addr.toNat % w.bytes = 0 ∧
      off = addr.toNat - (m.resolveWin B addr forWrite).lo := by
  unfold window at h
  simp only at h
  cases hbuf : (m.resolveWin B addr forWrite).buf with
  | none => rw [hbuf] at h; cases h
  | some r' =>
    rw [hbuf] at h
    simp only [Option.ite_none_right_eq_some, Option.some.injEq, Prod.mk.injEq] at h
    obtain ⟨⟨hlo, hhi, hal⟩, rfl, rfl⟩ := h
    exact ⟨m.resolveWin_backs B hbuf, hlo, hhi, hal, rfl⟩

theorem read_core (addr : Word) (w : Width) :
    (m.read B addr w).map (fun r => (r.1, r.2.core)) = m.core.get B addr w := by
  unfold read Core.get
  simp only [core, Dma.regRead_erase_eq]
  cases busRead B (Dma.regRead B.v m.dma) m.mem m.dev m.cycle addr w <;> rfl

theorem fetchDatum_core (addr : Word) (w : Width) :
    (m.fetchDatum B addr w).map (fun r => (r.1, r.2.core)) = m.core.get B addr w := by
  unfold fetchDatum
  split
  next r off h =>
    split at h
    next => cases h
    next =>
      obtain ⟨hb, hlo, hhi, hal, rfl⟩ := m.window_backs B h
      unfold Core.get
      rw [show busRead B _ m.core.mem m.core.dev m.core.cycle addr w = _ from
        hb.read _ _ _ addr w (.refl _) hlo hhi hal]
      rfl
  next => exact m.read_core B addr w

theorem write_core (addr val : Word) (w : Width) :
    (m.write B addr val w).map core = m.core.put B addr val w := by
  have hwatch : ∀ n : Machine δ, n = (if addr ∈ m.watch then { m with watchHit := some addr } else m) →
      n.dma = m.dma ∧ n.mem = m.mem ∧ n.dev = m.dev ∧ n.cycle = m.cycle := by
    rintro n rfl
    split <;> exact ⟨rfl, rfl, rfl, rfl⟩
  unfold write Core.put
  split
  next => rfl
  next =>
    generalize hn : (if addr ∈ m.watch then { m with watchHit := some addr } else m) = n
    obtain ⟨hdma, hmem, hdev, hcyc⟩ := hwatch n hn.symm
    simp only [core, hdma, hmem, hdev, hcyc]
    split
    next =>
      simp only [Except.map, core, Dma.regRead_erase]
      rw [Dma.erase_regWrite]
    next =>
      cases busWrite B m.mem m.dev m.cycle addr val w with
      | error e => rfl
      | ok r => rfl

theorem storeDatum_core (addr val : Word) (w : Width) :
    (m.storeDatum B addr val w).map core = m.core.put B addr val w := by
  unfold storeDatum
  split
  next r off h =>
    split at h
    next => cases h
    next =>
      obtain ⟨hb, hlo, hhi, hal, rfl⟩ := m.window_backs B h
      obtain ⟨hdma, hwrite⟩ := hb.write rfl m.mem m.cycle addr val w (.refl _) hlo hhi
      unfold Core.put
      rw [if_neg (by omega), if_neg (by rw [hdma]; decide)]
      simp only [core, hwrite]
      rfl
  next => exact m.write_core B addr val w

theorem payCredit_core (i : Nat) : (m.payCredit B i).core = m.core := by
  unfold payCredit
  simp only
  split
  · simp only [core, setCh, Dma.erase_setCh]
    congr 1
    exact Dma.setCh_self _ _
  · rfl

/-- A transfer, without the pace. -/
theorem transfer_core (i : Nat) : (m.transfer B i).map core = m.core.move B i := by
  rw [← m.payCredit_core B i]
  unfold transfer Core.move
  generalize m.payCredit B i = m
  simp only
  have hch : m.core.dma.ch i = (m.dma.ch i).erase := rfl
  rw [hch, Channel.erase_ctrl]
  cases ctrlDataSize (m.dma.ch i).ctrl with
  | none => rfl
  | some w =>
    simp only [Channel.erase_readAddr, Channel.erase_writeAddr, Channel.erase_swap]
    rw [← m.fetchDatum_core B (m.dma.ch i).readAddr w]
    cases m.fetchDatum B (m.dma.ch i).readAddr w with
    | error e => rfl
    | ok r =>
      obtain ⟨datum, m₁⟩ := r
      simp only [Except.map, bind, Except.bind]
      rw [← m₁.storeDatum_core B]
      cases m₁.storeDatum B (m.dma.ch i).writeAddr ((m.dma.ch i).swap B.v datum w) w with
      | error e => rfl
      | ok m₂ =>
        simp [Except.map, pure, Except.pure, core]

end Machine

end DmaCpu.Emu
