-- SUMMARY: The end of an instruction: completion, and the channel that rewinds fetch.
import DmaCpu.Emu.Turn

/-!
# Rewinding

A channel that chains to fix, or to cleanup, starts it when it completes. That
channel copies one word, fetch's write address, from memory to fetch's trigger
register. It can do so as long as no instruction has touched its registers or
that word.
-/
namespace DmaCpu.Emu

variable {δ : Type} {B : Board δ} {mem mem' : Mem} {v : Variant}

theorem Mem.sram_store_psram (mem : Mem) (off : Nat) (val : Word) (w : Width) :
    (mem.store .psram off val w).sram = mem.sram := rfl

theorem Mem.sram_store_sram (mem : Mem) (off : Nat) (val : Word) (w : Width) :
    (mem.store .sram off val w).sram = mem.sram.store off val w := rfl

theorem sram_busWrite {dev dev' : δ} {cycle : Nat} {addr val : Word} {w : Width}
    (h : busWrite B mem dev cycle addr val w = .ok (mem', dev')) :
    mem'.sram = mem.sram ∨
      sramBase ≤ addr.toNat ∧ mem'.sram = mem.sram.store (addr.toNat - sramBase) val w := by
  unfold busWrite at h
  split at h
  next hin =>
    cases h
    exact .inr ⟨((Mem.inSRAM_iff ..).1 hin).1, rfl⟩
  next =>
    left
    split at h
    next =>
      split at h
      · cases h
      · cases h; exact Mem.sram_store_psram ..
    next =>
      split at h
      next =>
        cases hdev : B.write dev mem cycle addr val w with
        | error f => rw [hdev] at h; cases h
        | ok r => rw [hdev] at h; cases h; rfl
      next => cases h

/-- A write leaves the words of the SRAM beside it alone. -/
theorem busWrite_apart {dev dev' : δ} {cycle : Nat} {addr val p : Word} {w : Width}
    (h : busWrite B mem dev cycle addr val w = .ok (mem', dev')) (hp : sramBase ≤ p.toNat)
    (hapart : addr.toNat + w.bytes ≤ p.toNat ∨ p.toNat + 4 ≤ addr.toNat) :
    mem'.sram.size = mem.sram.size ∧
      mem'.sram.load (p.toNat - sramBase) .word = mem.sram.load (p.toNat - sramBase) .word := by
  rcases sram_busWrite h with hsram | ⟨hlo, hsram⟩
  · rw [hsram]
    exact ⟨rfl, rfl⟩
  · rw [hsram, Ram.size_store, Ram.load_store_apart]
    · exact ⟨rfl, rfl⟩
    · have : Width.word.bytes = 4 := rfl
      omega

namespace Sequential

theorem auxCtrl_copies (F : Front) (v : Variant) (hi : F.aux < 16) :
    Copies v (F.auxCtrl v) F.aux ∧ ({ ctrl := F.auxCtrl v } : Channel).strideR v = 0 ∧
      ({ ctrl := F.auxCtrl v } : Channel).strideW v = 0 := by
  unfold Front.auxCtrl
  generalize F.aux = i at hi
  refine ⟨?_, ?_, ?_⟩
  · constructor <;> revert hi <;> revert i <;> cases v <;> decide
  · revert hi; revert i; cases v <;> decide
  · revert hi; revert i; cases v <;> decide

namespace State

variable {F : Front} {i : Nat} (S : State δ) {f f' e e' : Channel}

/-- The rewinding channel is set up, and the word it copies is there. -/
structure Rewinds (B : Board δ) (F : Front) (S : State δ) : Prop where
  read : (S.regs.ch F.aux).readAddr = F.scratch
  write : (S.regs.ch F.aux).writeAddr = chanRegAddr F.fetch offAl2WriteAddrTrig
  ctrl : (S.regs.ch F.aux).ctrl = F.auxCtrl B.v
  reload : (S.regs.ch F.aux).reload = 1
  alive : (S.regs.ch F.aux).wedged = false
  inSRAM : S.mem.inSRAM F.scratch .word = true
  aligned : F.scratch.toNat % 4 = 0
  scratch : S.mem.sram.load (F.scratch.toNat - sramBase) .word = F.home

/-- It depends on that channel and that word. -/
theorem Rewinds.same {S S' : State δ} (hS : S.Rewinds B F)
    (hch : S'.regs.ch F.aux = S.regs.ch F.aux) (hsize : S'.mem.sram.size = S.mem.sram.size)
    (hload : S'.mem.sram.load (F.scratch.toNat - sramBase) .word =
      S.mem.sram.load (F.scratch.toNat - sramBase) .word) : S'.Rewinds B F := by
  obtain ⟨hread, hwrite, hctrl, hreload, halive, hin, haligned, hscratch⟩ := hS
  rw [← hch] at hread hwrite hctrl hreload halive
  refine ⟨hread, hwrite, hctrl, hreload, halive, ?_, haligned, hload.trans hscratch⟩
  rw [Mem.inSRAM_iff, hsize]
  exact (Mem.inSRAM_iff ..).1 hin

theorem Rewinds.fetchWord {S S' : State δ} {x : Word} (hS : S.Rewinds B F)
    (h : S.fetchWord B = .ok (x, S')) : S'.Rewinds B F := by
  obtain ⟨dev, rfl⟩ := fetchWord_ok h
  exact hS.same rfl rfl rfl

/-- A write that leaves the rewinding channel and its word alone. -/
structure Spares (B : Board δ) (F : Front) (i : Nat) (addr : Word) (w : Width) : Prop where
  dma : inDMA addr = true → F.target B.v i (aliasOp addr).1 ≠ .count F.aux
  scratch : addr.toNat + w.bytes ≤ F.scratch.toNat ∨ F.scratch.toNat + 4 ≤ addr.toNat

theorem putReg_regs (t : Target) (x : Word) (op : Nat) : (S.putReg t x op).regs = S.regs ∨
    ∃ j y, t = .count j ∧
      (S.putReg t x op).regs = S.regs.setCh j { S.regs.ch j with reload := y } := by
  cases t with
  | count j => exact .inr ⟨j, _, rfl, rfl⟩
  | sniffCtrl => exact .inl rfl
  | sniffData => exact .inl rfl
  | pc => exact .inl rfl
  | window => exact .inl rfl
  | other => exact .inl rfl

section

variable {S S' : State δ}

/-- What a write can do to the registers: the count of a channel. -/
theorem put_regs {addr x : Word} {w : Width} (h : S.put B F i addr x w = .ok S') :
    S'.regs = S.regs ∨ ∃ j y, inDMA addr = true ∧ F.target B.v i (aliasOp addr).1 = .count j ∧
      S'.regs = S.regs.setCh j { S.regs.ch j with reload := y } := by
  unfold put at h
  split at h
  · cases h
  split at h
  next hdma =>
    rw [← Except.ok.inj h]
    rcases S.putReg_regs (F.target B.v i (aliasOp addr).1) x (aliasOp addr).2 with
      hregs | ⟨j, y, ht, hregs⟩
    · exact .inl hregs
    · exact .inr ⟨j, y, hdma, ht, hregs⟩
  next =>
    left
    cases hbus : busWrite B S.mem S.dev S.cycle addr x w with
    | error f => rw [hbus] at h; cases h
    | ok r => rw [hbus] at h; cases h; rfl

theorem Calm.put (hS : S.Calm F i) {addr x : Word} {w : Width}
    (h : S.put B F i addr x w = .ok S') : S'.Calm F i := by
  rcases put_regs h with hregs | ⟨j, y, -, -, hregs⟩
  · exact ⟨hregs ▸ hS.erased, fun j hf hi => hregs ▸ hS.idle j hf hi⟩
  · have hch : (S.regs.ch j).erase = S.regs.ch j := congrArg (fun d : Dma => d.ch j) hS.erased
    refine ⟨?_, ?_⟩
    · rw [hregs, Dma.erase_setCh, hS.erased]
      exact congrArg (fun c => S.regs.setCh j { c with reload := y }) hch
    · intro k hf hi
      rw [hregs]
      by_cases hk : k = j
      · subst hk
        rw [Dma.setCh_same]
        exact hS.idle k hf hi
      · rw [Dma.setCh_other _ hk]
        exact hS.idle k hf hi

theorem Rewinds.put (hS : S.Rewinds B F) {addr x : Word} {w : Width}
    (hw : Spares B F i addr w) (h : S.put B F i addr x w = .ok S') : S'.Rewinds B F := by
  have hch : S'.regs.ch F.aux = S.regs.ch F.aux := by
    rcases put_regs h with hregs | ⟨j, y, hdma, ht, hregs⟩
    · rw [hregs]
    · rw [hregs]
      apply Dma.setCh_other
      rintro rfl
      exact hw.dma hdma ht
  unfold State.put at h
  split at h
  · cases h
  split at h
  · have hmem : ∀ t y op, (S.putReg t y op).mem = S.mem := by
      intro t y op
      cases t <;> rfl
    have hS' := Except.ok.inj h
    exact hS.same hch (by rw [← hS', hmem]) (by rw [← hS', hmem])
  · cases hbus : busWrite B S.mem S.dev S.cycle addr x w with
    | error f => rw [hbus] at h; cases h
    | ok r =>
      rw [hbus] at h
      cases h
      obtain ⟨hsize, hload⟩ := busWrite_apart hbus ((Mem.inSRAM_iff ..).1 hS.inSRAM).1 hw.scratch
      exact hS.same rfl hsize hload

/-- A datum is a write, and perhaps the sniffer's turn, a cycle later. -/
theorem datum_ok {c : Channel} (h : S.datum B F i c = .ok S') :
    ∃ w dev x acc S₁, ctrlDataSize c.ctrl = some w ∧
      ({ S with dev := dev, cycle := S.cycle + 1 } : State δ).put B F i c.writeAddr x w = .ok S₁ ∧
      S' = { S₁ with sniffData := acc } := by
  unfold datum at h
  split at h
  · cases h
  next w hsize =>
    cases hread : busRead B ((S.dma F i (S.rest F) c).regRead B.v) S.mem S.dev (S.cycle + 1)
        c.readAddr w with
    | error f => rw [hread] at h; cases h
    | ok r =>
      rw [hread] at h
      simp only [Except.bind] at h
      cases hput : ({ S with dev := r.2, cycle := S.cycle + 1 } : State δ).put B F i c.writeAddr
          (c.swap B.v r.1 w) w with
      | error f => rw [hput] at h; cases h
      | ok S₁ =>
        rw [hput] at h
        obtain ⟨acc, hacc⟩ := S₁.sniff_eq i (c.swap B.v r.1 w) w
        cases h
        split
        · exact ⟨w, r.2, _, acc, S₁, hsize, hput, hacc⟩
        · exact ⟨w, r.2, _, S₁.sniffData, S₁, hsize, hput, rfl⟩

theorem Calm.datum (hS : S.Calm F i) {c : Channel}
    (h : S.datum B F i c = .ok S') : S'.Calm F i := by
  obtain ⟨w, dev, x, acc, S₁, -, hput, rfl⟩ := datum_ok h
  have hS₀ : ({ S with dev := dev, cycle := S.cycle + 1 } : State δ).Calm F i := ⟨hS.erased, hS.idle⟩
  exact ⟨(hS₀.put hput).erased, (hS₀.put hput).idle⟩

theorem Rewinds.datum (hS : S.Rewinds B F) {c : Channel}
    (hw : ∀ w, ctrlDataSize c.ctrl = some w → Spares B F i c.writeAddr w)
    (h : S.datum B F i c = .ok S') : S'.Rewinds B F := by
  obtain ⟨w, dev, x, acc, S₁, hsize, hput, rfl⟩ := datum_ok h
  have hS₀ : ({ S with dev := dev, cycle := S.cycle + 1 } : State δ).Rewinds B F :=
    hS.same rfl rfl rfl
  exact (hS₀.put (hw w hsize) hput).same rfl rfl rfl

end

/-! ## Completion -/

theorem signalled_eq (v : Variant) (i : Nat) (e : Channel) :
    ∃ regs : Dma, S.signalled v i e = { S with regs := regs } ∧ regs.ch = S.regs.ch ∧
      (S.regs.erase = S.regs → regs.erase = regs) := by
  unfold signalled
  split
  · exact ⟨S.regs, rfl, rfl, id⟩
  · exact ⟨S.regs.raise i, rfl, rfl, fun h => congrArg (Dma.raise · i) h⟩

theorem signalled_ctrl {S : State δ} (h : e.ctrl = e'.ctrl) :
    S.signalled v i e = S.signalled v i e' := by
  unfold signalled Channel.irqQuiet
  rw [h]

theorem Calm.signalled {S : State δ} (hS : S.Calm F i) (v : Variant) (e : Channel) :
    (S.signalled v i e).Calm F i := by
  obtain ⟨regs, hS', hch, herase⟩ := S.signalled_eq v i e
  rw [hS']
  exact ⟨herase hS.erased, fun j hf hi => by rw [hch]; exact hS.idle j hf hi⟩

theorem Rewinds.signalled {S : State δ} (hS : S.Rewinds B F) (v : Variant) (i : Nat) (e : Channel) :
    (S.signalled v i e).Rewinds B F := by
  obtain ⟨regs, hS', hch, -⟩ := S.signalled_eq v i e
  rw [hS']
  exact hS.same (by rw [hch]) rfl rfl

theorem dma_finish :
    (S.dma F i f e).finish v i = (S.signalled v i e).dma F i f e.free := by
  unfold Dma.finish signalled
  rw [dma_run, dma_setCh_run]
  split
  · rfl
  · rfl

/-- The rewinding channel is ready to be started. -/
theorem Rewinds.armed (hv : F.Valid B.v i) {S : State δ} (hcalm : S.Calm F i) (hS : S.Rewinds B F) :
    Dma.Armed B.v (S.regs.ch F.aux) := by
  have hm := (auxCtrl_copies F B.v (lt_sixteen hv.aux_lt)).1
  refine ⟨?_, hcalm.idle _ hv.fetch_aux.symm hv.ne_aux.symm, ?_⟩
  · unfold Channel.enabled
    rw [hS.ctrl]
    exact hm.enabled
  · unfold Channel.zeroLength
    rw [hS.reload]
    cases B.v <;> decide

/-- The rewinding channel while it runs. -/
def rewinding (B : Board δ) (F : Front) (S : State δ) : Channel := (S.regs.ch F.aux).launch B.v

/-- The machine while it has its turn. -/
def rewindTurn (B : Board δ) (F : Front) (i : Nat) (e : Channel) (S : State δ) : Core δ :=
  ({ S with regs := S.regs.setCh F.aux (S.rewinding B F) } : State δ).core F i (S.rest F) e

/-- The end of an instruction that chains to the rewinding channel. -/
theorem dma_complete_rewind (hv : F.Valid B.v i) (hcalm : S.Calm F i) (hS : S.Rewinds B F)
    (fuel : Nat) (hchain : e.chainTo B.v = F.aux) (hmode : e.mode ≠ transModeTriggerSelf) :
    Dma.completeWith B.v (Dma.trigger B.v fuel) (S.dma F i f e) i =
      ({ S.signalled B.v i e with
          regs := (S.signalled B.v i e).regs.setCh F.aux ((S.signalled B.v i e).rewinding B F) } :
        State δ).dma F i f e.free := by
  obtain ⟨regs, hS', hch, -⟩ := S.signalled_eq B.v i e
  have haux : (S.dma F i f e).ch F.aux = S.regs.ch F.aux :=
    S.dma_other hv.fetch_aux.symm hv.ne_aux.symm
  have hto : ((S.dma F i f e).ch i).chainTo B.v = F.aux := by rw [dma_run, hchain]
  rw [Dma.completeWith_chain fuel hto hv.ne_aux.symm hv.aux_lt
    (by rw [dma_run]; exact hmode) (by rw [haux]; exact hS.armed hv hcalm), haux, dma_finish,
    dma_setCh_other _ hv.fetch_aux.symm hv.ne_aux.symm]
  unfold rewinding
  rw [hS', ← hch]

theorem complete_rewind (hv : F.Valid B.v i) (hcalm : S.Calm F i) (hS : S.Rewinds B F)
    (hchain : e.chainTo B.v = F.aux) (hmode : e.mode ≠ transModeTriggerSelf) :
    Core.mk ((S.dma F i (S.rest F) e).complete B.v i) S.mem S.dev S.cycle =
      (S.signalled B.v i e).rewindTurn B F i e.free := by
  obtain ⟨regs, hS', -, -⟩ := S.signalled_eq B.v i e
  unfold Dma.complete rewindTurn core rest
  rw [S.dma_complete_rewind hv hcalm hS _ hchain hmode, hS']

/-- The end of an instruction that chains to fetch itself. -/
theorem complete_refetch (hv : F.Valid B.v i) (hchain : e.chainTo B.v = F.fetch)
    (hmode : e.mode ≠ transModeTriggerSelf) :
    (S.dma F i (S.rest F) e).complete B.v i =
      (S.signalled B.v i e).dma F i (F.chan S.pc S.window F.words true) e.free := by
  have hf := S.dma_fetch (f := S.rest F) (e := e) hv.fetch_ne
  have hto : ((S.dma F i (S.rest F) e).ch i).chainTo B.v = F.fetch := by rw [dma_run, hchain]
  have harmed : Dma.Armed B.v (S.rest F) := by
    refine ⟨hv.copies.enabled, rfl, ?_⟩
    unfold Channel.zeroLength
    rw [show (S.rest F).reload = F.words from rfl, hv.count, decide_eq_false hv.words]
    rfl
  have hlaunch : (S.rest F).launch B.v = F.chan S.pc S.window F.words true := by
    unfold rest Front.chan Channel.launch Channel.latch
    simp [hv.count, hv.mode]
  unfold Dma.complete
  rw [Dma.completeWith_chain _ hto hv.fetch_ne hv.fetch_lt (by rw [dma_run]; exact hmode)
    (by rw [hf]; exact harmed), hf, dma_finish, dma_setCh_fetch _ hv.fetch_ne, hlaunch]

/-! ## What the trigger of an instruction does -/

section

variable {r : Nat} {g : Dma.Reg} {x : Word}

section

variable (hv : F.Valid B.v i) (hr : r < chanStride) (hlands : S.Lands B F i r)
include hv hr hlands

theorem started_armed
    (hx : x ≠ 0) (h : Channel) (hheld : Dma.writeChan B.v e g x = h) (harmed : Dma.Armed B.v h) :
    started B F i r g e x S = S.executing F i (h.launch B.v) := by
  refine S.started_of_trigger hv hr S hlands ?_ rfl
  rw [hheld, decide_eq_true hx, Dma.trigger_armed _ _ (by rw [dma_run]; exact harmed), dma_run,
    dma_setCh_run]

/-- With nothing to move it is over at once. -/
theorem started_empty
    (hcalm : S.Calm F i) (hS : S.Rewinds B F) (hx : x ≠ 0) (h : Channel)
    (hheld : Dma.writeChan B.v e g x = h) (henabled : h.enabled = true) (hfree : h.busy = false)
    (hzero : h.zeroLength B.v = true) (hchain : h.chainTo B.v = F.aux)
    (hmode : B.v.transMode h.reload ≠ transModeTriggerSelf) :
    started B F i r g e x S =
      (S.signalled B.v i (h.latch B.v)).rewindTurn B F i (h.latch B.v).free := by
  obtain ⟨regs, hS', -, -⟩ := S.signalled_eq B.v i (h.latch B.v)
  have hcomplete := S.dma_complete_rewind (f := F.chan (S.pc - 4) (chanRegAddr i r) 1 true)
    (e := h.latch B.v) hv hcalm hS 31 hchain hmode
  have hstarted := S.started_of_trigger (e := e) (g := g) (x := x) hv hr _ hlands
    ((?_ : _ = _).trans hcomplete) (by rw [hS'])
  · rw [hstarted, hS']
    rfl
  · rw [hheld, decide_eq_true hx, show Dma.zeroDepthMax = 31 + 1 from rfl,
      Dma.trigger_zero _ _ (by rw [dma_run]; exact henabled) (by rw [dma_run]; exact hfree)
        (by rw [dma_run]; exact hzero), dma_run, dma_setCh_run]

/-- A null trigger stops the machine. -/
theorem started_null
    (hcalm : S.Calm F i) (hx : x = 0) :
    ∃ regs : Dma, ({ S with regs := regs } : State δ).Calm F i ∧ started B F i r g e x S =
      ({ S with regs := regs } : State δ).core F i (S.rest F) (Dma.writeChan B.v e g x) := by
  by_cases hq : e.ctrl &&& B.v.ctrlIRQQuiet ≠ 0
  · refine ⟨S.regs.raise i, ⟨congrArg (Dma.raise · i) hcalm.erased, hcalm.idle⟩,
      S.started_of_trigger hv hr { S with regs := S.regs.raise i } hlands ?_ rfl⟩
    rw [decide_eq_false (not_not.2 hx), Dma.trigger_null, if_pos hq, dma_raise]
  · refine ⟨S.regs, hcalm, S.started_of_trigger hv hr S hlands ?_ rfl⟩
    rw [decide_eq_false (not_not.2 hx), Dma.trigger_null, if_neg hq]

end

end

section

variable (hv : F.Valid B.v i)
include hv

theorem rewindTurn_aux :
    (S.rewindTurn B F i e).dma.ch F.aux = S.rewinding B F := by
  unfold rewindTurn core
  rw [dma_other _ hv.fetch_aux.symm hv.ne_aux.symm]
  exact Dma.setCh_same ..

theorem rewindTurn_sole (hcalm : S.Calm F i) (hS : S.Rewinds B F)
    (he : Idle e) : (S.rewindTurn B F i e).dma.Sole B.v F.aux := by
  have hm := (auxCtrl_copies F B.v (lt_sixteen hv.aux_lt)).1
  have hctrl : (S.rewinding B F).ctrl = F.auxCtrl B.v := hS.ctrl
  refine ⟨hv.aux_lt, ?_, ?_, ?_, ?_, ?_⟩
  · rw [S.rewindTurn_aux hv]; rfl
  · rw [S.rewindTurn_aux hv]
    unfold Channel.enabled
    rw [hctrl]
    exact hm.enabled
  · rw [S.rewindTurn_aux hv]
    unfold Channel.treq
    rw [hctrl]
    exact hm.unpaced
  · rw [S.rewindTurn_aux hv]; exact hS.alive
  · intro j hj
    unfold rewindTurn core
    by_cases hjf : j = F.fetch
    · subst hjf
      rw [dma_fetch _ hv.fetch_ne]
      rfl
    · by_cases hje : j = i
      · subst hje
        rw [dma_run]
        exact he.free
      · rw [dma_other _ hjf hje, Dma.setCh_other _ hj]
        exact hcalm.idle j hjf hje

/-- The rewinding channel after its word. -/
theorem rewinding_done (hcalm : S.Calm F i) (hS : S.Rewinds B F) :
    (step B.v (S.rewinding B F)).free =
      { S.regs.ch F.aux with remaining := 0, mode := 0 } := by
  obtain ⟨-, hstrideR, hstrideW⟩ := auxCtrl_copies F B.v (lt_sixteen hv.aux_lt)
  have hctrl : (S.rewinding B F).ctrl = F.auxCtrl B.v := hS.ctrl
  have hR : (S.rewinding B F).strideR B.v = 0 := by
    unfold Channel.strideR Channel.sizeBytes
    rw [hctrl]
    exact hstrideR
  have hW : (S.rewinding B F).strideW B.v = 0 := by
    unfold Channel.strideW Channel.sizeBytes
    rw [hctrl]
    exact hstrideW
  have hcredit : (S.regs.ch F.aux).credit = 0 := by
    rw [← hcalm.erased]
    rfl
  have hbusy := hcalm.idle _ hv.fetch_aux.symm hv.ne_aux.symm
  have hcount : B.v.transCount 1 = 1 ∧ B.v.transMode 1 = 0 := by cases B.v <;> decide
  unfold step Dma.advance
  rw [if_neg (not_not.2 hR), if_neg (not_not.2 hW)]
  have hreload := hS.reload
  unfold rewinding
  generalize S.regs.ch F.aux = c at hcredit hbusy hreload
  obtain ⟨r, w, ctrl, reload, rem, mode, busy, wedged, credit⟩ := c
  cases hcredit
  cases hbusy
  obtain rfl : reload = 1 := hreload
  unfold Channel.launch Channel.latch Channel.free
  simp only [hcount.1, hcount.2]
  rfl

/-- A word written to fetch's trigger restarts it there. -/
theorem restart (x : Word) :
    (S.dma F i (S.rest F) e).chanWrite B.v F.fetch offAl2WriteAddrTrig x true =
      S.dma F i (F.chan S.pc x F.words true) e := by
  unfold Dma.chanWrite Dma.storeReg
  rw [if_pos (by decide), show Dma.regOf offAl2WriteAddrTrig = some .writeAddr from by decide]
  simp only [dma_fetch _ hv.fetch_ne, dma_setCh_fetch _ hv.fetch_ne]
  rw [Dma.trigger_armed]
  · rw [dma_fetch _ hv.fetch_ne, dma_setCh_fetch _ hv.fetch_ne]
    unfold rest Front.chan Dma.writeChan Channel.launch Channel.latch
    simp [hv.count, hv.mode]
  · rw [dma_fetch _ hv.fetch_ne]
    refine ⟨hv.copies.enabled, rfl, ?_⟩
    unfold Channel.zeroLength
    rw [show (Dma.writeChan B.v (S.rest F) .writeAddr x).reload = F.words from rfl, hv.count,
      decide_eq_false hv.words]
    rfl

/-- The rewinding channel's side of its word. -/
theorem rewinding_deliver (hcalm : S.Calm F i) (hS : S.Rewinds B F) (x : Word)
    {addr : Word} (hown : Dma.ownCount F.aux addr = false) :
    (({ S with regs := S.regs.setCh F.aux (S.rewinding B F) } : State δ).dma F i f e).deliver B.v
        F.aux addr x .word = (S.rewound F).dma F i f e := by
  have hm := (auxCtrl_copies F B.v (lt_sixteen hv.aux_lt)).1
  have hctrl : (S.rewinding B F).ctrl = F.auxCtrl B.v := hS.ctrl
  generalize hd : ({ S with regs := S.regs.setCh F.aux (S.rewinding B F) } : State δ).dma F i f e = d
  have hch : d.ch F.aux = S.rewinding B F := by
    rw [← hd, dma_other _ hv.fetch_aux.symm hv.ne_aux.symm]
    exact Dma.setCh_same ..
  have hcount : B.v.transCount 1 = 1 ∧ B.v.transMode 1 = 0 := by cases B.v <;> decide
  have hrem : (S.rewinding B F).remaining = 1 := by
    unfold rewinding Channel.launch
    simp only [hS.reload]
    exact hcount.1
  have hmode : (S.rewinding B F).mode = 0 := by
    unfold rewinding Channel.launch Channel.latch
    simp only [hS.reload]
    exact hcount.2
  have hm₀ : Copies B.v (d.ch F.aux).ctrl F.aux := by
    rw [hch, hctrl]
    exact hm
  have hm₁ : Copies B.v ((d.setCh F.aux (step B.v (S.rewinding B F))).ch F.aux).ctrl F.aux := by
    rw [Dma.setCh_same]
    exact hctrl.symm ▸ hm
  rw [hm₀.deliver (by rw [hch, hmode]; decide) (by rw [hch, hrem]; decide) hown, hch, hm₁.conclude]
  · rw [Dma.setCh_setCh, Dma.setCh_same, S.rewinding_done hv hcalm hS, ← hd,
      dma_setCh_other _ hv.fetch_aux.symm hv.ne_aux.symm]
    simp only [Dma.setCh_setCh]
    rfl
  · rw [Dma.setCh_same]
    exact hmode.symm ▸ (by decide : (0 : Word) ≠ transModeTriggerSelf)
  · rw [Dma.setCh_same]
    change (S.rewinding B F).remaining - 1 = 0
    rw [hrem]
    rfl
  · rw [Dma.setCh_same]
    rfl

/-- Its turn: fetch runs again, from the home window. -/
theorem leads_rewind (hcalm : S.Calm F i) (hS : S.Rewinds B F) (he : Idle e) :
    (S.rewindTurn B F i e).Leads B
      (.ok ((S.rewound F).core F i (F.chan S.pc F.home F.words true) e)) := by
  have hm := (auxCtrl_copies F B.v (lt_sixteen hv.aux_lt)).1
  have hctrl : (S.rewinding B F).ctrl = F.auxCtrl B.v := hS.ctrl
  have hch := S.rewindTurn_aux (e := e) hv
  have hregs : (S.regs.setCh F.aux (S.rewinding B F)).erase =
      S.regs.setCh F.aux (S.rewinding B F) := by
    have haux : (S.rewinding B F).erase = S.rewinding B F := rfl
    rw [Dma.erase_setCh, hcalm.erased, haux]
  have herased : (S.rewindTurn B F i e).dma.erase = (S.rewindTurn B F i e).dma :=
    dma_erase ({ S with regs := S.regs.setCh F.aux (S.rewinding B F) } : State δ) hregs rfl he.erased
  have hread : ∀ regs, busRead B regs (S.rewindTurn B F i e).mem (S.rewindTurn B F i e).dev
      ((S.rewindTurn B F i e).cycle + 1) F.scratch .word = .ok (F.home, S.dev) := by
    intro regs
    have hal : ¬ F.scratch.toNat % Width.word.bytes ≠ 0 := not_not.2 hS.aligned
    have hin : (S.rewindTurn B F i e).mem.inSRAM F.scratch .word = true := hS.inSRAM
    unfold busRead
    rw [if_neg hal, if_pos hin]
    exact congrArg (fun x => Except.ok (x, S.dev)) hS.scratch
  have hbeat : (S.rewindTurn B F i e).beat B F.aux =
      .ok ((S.rewound F).core F i (F.chan S.pc F.home F.words true) e) := by
    rw [Core.beat_copies (j := F.fetch) (r := offAl2WriteAddrTrig) (by rw [hch, hctrl]; exact hm)
      herased (by rw [hch]; exact hS.write) hv.fetch_lt (by decide) (by decide), hch,
      show (S.rewinding B F).readAddr = F.scratch from hS.read, hread]
    simp only [Except.map]
    refine congrArg Except.ok ?_
    have hrestart := restart ({ S with regs := S.regs.setCh F.aux (S.rewinding B F) } : State δ)
      (e := e) hv F.home
    rw [decide_eq_true hv.home]
    exact congrArg (Core.mk · S.mem S.dev (S.cycle + 1))
      ((congrArg (Dma.deliver B.v · F.aux (chanRegAddr F.fetch offAl2WriteAddrTrig) F.home .word)
        hrestart).trans (S.rewinding_deliver hv hcalm hS F.home (ownCount_chanRegAddr
          (lt_sixteen hv.aux_lt) (lt_sixteen hv.fetch_lt) (by decide) hv.fetch_aux.symm)))
  rw [← hbeat]
  apply Core.Leads.beat (S.rewindTurn_sole hv hcalm hS he)
  rw [hch]
  unfold rewinding Channel.launch
  simp only [hS.reload]
  cases B.v <;> decide

end

theorem Calm.rewound {S : State δ} (hS : S.Calm F i) : (S.rewound F).Calm F i := by
  have hch : (S.regs.ch F.aux).erase = S.regs.ch F.aux :=
    congrArg (fun d : Dma => d.ch F.aux) hS.erased
  unfold State.rewound
  refine ⟨?_, ?_⟩
  · rw [Dma.erase_setCh, hS.erased]
    exact congrArg (fun c => S.regs.setCh F.aux { c with remaining := 0, mode := 0 }) hch
  · intro j hf hi
    by_cases hj : j = F.aux
    · subst hj
      rw [Dma.setCh_same]
      exact hS.idle _ hf hi
    · rw [Dma.setCh_other _ hj]
      exact hS.idle j hf hi

theorem Rewinds.rewound {S : State δ} (hS : S.Rewinds B F) : (S.rewound F).Rewinds B F := by
  have haux : (S.rewound F).regs.ch F.aux =
      { S.regs.ch F.aux with remaining := 0, mode := 0 } := Dma.setCh_same ..
  refine ⟨?_, ?_, ?_, ?_, ?_, hS.inSRAM, hS.aligned, hS.scratch⟩
  · rw [haux]; exact hS.read
  · rw [haux]; exact hS.write
  · rw [haux]; exact hS.ctrl
  · rw [haux]; exact hS.reload
  · rw [haux]; exact hS.alive

end State

end Sequential

end DmaCpu.Emu
