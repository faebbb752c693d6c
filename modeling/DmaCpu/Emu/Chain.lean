-- SUMMARY: What triggers and completions do to idle channels, and writes to channel registers.
import DmaCpu.Emu.Core

/-!
# Chains

The machines built on this block use few of its triggers: a null write, the
start of an idle channel, a zero-length sequence, the end of a quiet channel
without a chain, and the end of a channel that starts an idle one. Each has one
equation here.
-/
namespace DmaCpu.Emu

variable {δ : Type} {B : Board δ} {v : Variant} {val : Word}

namespace Dma

variable {d : Dma} {i next : Nat}

/-- The channel can be started and would move something. -/
structure Armed (v : Variant) (c : Channel) : Prop where
  enabled : c.enabled = true
  idle : c.busy = false
  some : c.zeroLength v = false

theorem trigger_null (fuel : Nat) (q : Word) :
    trigger v fuel d i false q = if q &&& v.ctrlIRQQuiet ≠ 0 then d.raise i else d := by
  unfold trigger
  rfl

theorem trigger_armed (fuel : Nat) (q : Word) (h : Armed v (d.ch i)) :
    trigger v fuel d i true q = d.setCh i ((d.ch i).launch v) := by
  unfold trigger
  simp [h.enabled, h.idle, h.some]

theorem trigger_zero (fuel : Nat) (q : Word) (henabled : (d.ch i).enabled = true)
    (hidle : (d.ch i).busy = false) (hzero : (d.ch i).zeroLength v = true) :
    trigger v (fuel + 1) d i true q =
      completeWith v (trigger v fuel) (d.setCh i ((d.ch i).latch v)) i := by
  unfold trigger
  simp [henabled, hidle, hzero]

theorem finish_quiet (h : (d.ch i).irqQuiet v = true) : d.finish v i = d.setCh i (d.ch i).free :=
  if_pos h

theorem finish_ch (j : Nat) :
    (d.finish v i).ch j = if j = i then (d.ch i).free else d.ch j := by
  have hset : (d.setCh i (d.ch i).free).ch j = if j = i then (d.ch i).free else d.ch j :=
    Function.update_apply ..
  unfold finish
  split
  · exact hset
  · exact hset

/-- The end of a quiet channel that has no chain. -/
theorem completeWith_quiet {trig : Dma → Nat → Bool → Word → Dma}
    (hquiet : (d.ch i).irqQuiet v = true) (hself : (d.ch i).chainTo v = i)
    (hmode : (d.ch i).mode ≠ transModeTriggerSelf) :
    completeWith v trig d i = d.setCh i (d.ch i).free := by
  have hchain : chain v trig (d.finish v i) i i = d.finish v i := if_neg fun h => h.1 rfl
  have hagain : again trig (d.finish v i) i = d.finish v i := by
    apply if_neg
    rw [finish_ch, if_pos rfl]
    exact hmode
  unfold completeWith
  rw [hself, hchain, hagain, finish_quiet hquiet]

/-- The end of a channel that starts an idle one. -/
theorem completeWith_chain (fuel : Nat) (hto : (d.ch i).chainTo v = next) (hne : next ≠ i)
    (hlt : next < v.nChannels) (hmode : (d.ch i).mode ≠ transModeTriggerSelf)
    (harmed : Armed v (d.ch next)) :
    completeWith v (trigger v fuel) d i = (d.finish v i).setCh next ((d.ch next).launch v) := by
  have hch : (d.finish v i).ch next = d.ch next := by rw [finish_ch, if_neg hne]
  have hchain : chain v (trigger v fuel) (d.finish v i) i next =
      (d.finish v i).setCh next ((d.ch next).launch v) := by
    unfold chain
    rw [if_pos ⟨hne, hlt⟩, trigger_armed fuel _ (hch.symm ▸ harmed), hch]
  have hagain : ∀ c, again (trigger v fuel) ((d.finish v i).setCh next c) i =
      (d.finish v i).setCh next c := by
    intro c
    apply if_neg
    rw [setCh_ch, Function.update_of_ne hne.symm, finish_ch, if_pos rfl]
    exact hmode
  unfold completeWith
  rw [hto, hchain, hagain]

end Dma

/-! ## Channel registers on the bus -/

theorem Dma.regWrite_chan {d : Dma} {i r now : Nat} {raw : Bool}
    (hi : i < v.nChannels) (hr : r < chanStride) :
    d.regWrite v now (i * chanStride + r) val raw = d.chanWrite v i r val raw := by
  unfold regWrite
  rw [if_pos (by simp only [chanStride] at *; omega)]
  congr 1
  · simp only [chanStride] at *; omega
  · simp only [chanStride] at *; omega

theorem Dma.regRead_chan {d : Dma} {i r : Nat} (hi : i < v.nChannels) (hr : r < chanStride) :
    d.regRead v (i * chanStride + r) = chanRead v (d.ch i) r := by
  unfold regRead
  rw [if_pos (by simp only [chanStride] at *; omega)]
  congr 2
  · simp only [chanStride] at *; omega
  · simp only [chanStride] at *; omega

section

variable {i r : Nat} (hi : i < 16) (hr : r < chanStride)
include hi hr

theorem toNat_chanRegAddr :
    (chanRegAddr i r).toNat = dmaBase + i * chanStride + r := by
  simp only [chanRegAddr, BitVec.toNat_ofNat, dmaBase, chanStride] at *
  omega

theorem inDMA_chanRegAddr :
    inDMA (chanRegAddr i r) = true := by
  rw [inDMA_iff, toNat_chanRegAddr hi hr]
  simp only [dmaBase, chanStride] at *
  omega

theorem aliasOp_chanRegAddr :
    aliasOp (chanRegAddr i r) = (i * chanStride + r, 0) := by
  unfold aliasOp
  rw [toNat_chanRegAddr hi hr]
  simp only [dmaBase, chanStride, Prod.mk.injEq] at *
  omega

end

/-- A word written to a channel register. -/
theorem Core.put_chanReg {c : Core δ} {i r : Nat} (hi : i < B.v.nChannels)
    (hr : r < chanStride) (hal : r % 4 = 0) :
    c.put B (chanRegAddr i r) val .word =
      .ok { c with dma := (c.dma.chanWrite B.v i r val (val ≠ 0)).erase } := by
  have hi16 : i < 16 := Nat.lt_of_lt_of_le hi (by cases B.v <;> decide)
  unfold put
  rw [if_neg, if_pos (inDMA_chanRegAddr hi16 hr), aliasOp_chanRegAddr hi16 hr]
  · simp [applyAlias, Dma.regWrite_chan hi hr]
  · rw [toNat_chanRegAddr hi16 hr]
    simp only [dmaBase, chanStride, Width.bytes] at *
    omega

end DmaCpu.Emu
