-- SUMMARY: A processor's fetch channel and its running channel, word by word, against the sequential view.
import DmaCpu.Emu.Sequential
import DmaCpu.Emu.Sole
import DmaCpu.Emu.Chain

/-!
# Turns

The machine at a sequential state: fetch and the running channel given, all else
as the state says. Each word that fetch copies into the running channel's
registers, and each datum of the running channel, is an equation between such
machines.
-/
namespace DmaCpu.Emu

variable {δ : Type} {B : Board δ} {addr : Word} {left : Word} {raw : Bool}

/-! ## CTRL words of the machinery -/

/-- What the CTRL words of fetch, fix and cleanup have in common. -/
structure Copies (v : Variant) (ctrl : Word) (i : Nat) : Prop where
  size : ctrlDataSize ctrl = some .word
  plain : ({ ctrl := ctrl } : Channel).sniffEn v = false
  straight : ({ ctrl := ctrl } : Channel).bswap v = false
  quiet : ({ ctrl := ctrl } : Channel).irqQuiet v = true
  chain : ({ ctrl := ctrl } : Channel).chainTo v = i
  enabled : ({ ctrl := ctrl } : Channel).enabled = true
  unpaced : ({ ctrl := ctrl } : Channel).treq v = treqPermanent
  clean : ctrl &&& ~~~v.ctrlBusy = ctrl
  nonzero : ctrl ≠ 0

/-- A channel does not hit its own count by writing another channel's registers. -/
theorem ownCount_chanRegAddr {i j r : Nat} (hi : i < 16) (hj : j < 16) (hr : r < chanStride)
    (hne : i ≠ j) : Dma.ownCount i (chanRegAddr j r) = false := by
  unfold Dma.ownCount
  rw [Bool.and_eq_false_iff]
  rw [decide_eq_false_iff_not, BitVec.toNat_sub, toNat_chanRegAddr hj hr,
    toNat_chanRegAddr hi (by decide)]
  simp only [dmaBase, chanStride] at *
  omega

/-- Pointers and count after a datum. -/
theorem Dma.settle_step {d : Dma} {v : Variant} {i : Nat}
    (hmode : (d.ch i).mode ≠ transModeEndless) (hrem : (d.ch i).remaining ≠ 0)
    (hown : Dma.ownCount i addr = false) :
    d.settle v i addr = (d.setCh i (Sequential.step v (d.ch i))).conclude v i := by
  have hcounts : (Dma.advance v (d.ch i)).mode ≠ transModeEndless := hmode
  have hleft : (Dma.advance v (d.ch i)).remaining = (d.ch i).remaining := rfl
  unfold Dma.settle
  simp only [if_neg hcounts, hleft, if_pos hrem, hown, Bool.and_false]
  rfl

namespace Copies

variable {v : Variant} {i : Nat}

/-- A machinery channel after its datum. -/
theorem deliver {d : Dma} {addr x : Word} (h : Copies v (d.ch i).ctrl i)
    (hmode : (d.ch i).mode ≠ transModeEndless) (hrem : (d.ch i).remaining ≠ 0)
    (hown : Dma.ownCount i addr = false) :
    d.deliver v i addr x .word = (d.setCh i (Sequential.step v (d.ch i))).conclude v i := by
  have hplain : (d.ch i).sniffEn v = false := h.plain
  unfold Dma.deliver
  rw [hplain, if_neg (by decide), Dma.settle_step hmode hrem hown]

theorem swap {c : Channel} (h : Copies v c.ctrl i) (x : Word) : c.swap v x .word = x := by
  have hstraight : c.bswap v = false := h.straight
  unfold Channel.swap
  rw [hstraight]
  rfl

/-- The end of a machinery channel's sequence. -/
theorem conclude {d : Dma} (h : Copies v (d.ch i).ctrl i)
    (hmode : (d.ch i).mode ≠ transModeTriggerSelf) (hrem : (d.ch i).remaining = 0)
    (hbusy : (d.ch i).busy = true) : d.conclude v i = d.setCh i (d.ch i).free := by
  unfold Dma.conclude
  rw [if_pos ⟨hrem, hbusy⟩]
  exact Dma.completeWith_quiet h.quiet h.chain hmode

end Copies

/-- Outside the DMA window a read does not depend on the registers. -/
theorem busRead_regs {regs regs' : Nat → Word} {mem : Mem} {dev : δ} {cycle : Nat} {a : Word}
    {w : Width} (h : inDMA a = false) :
    busRead B regs mem dev cycle a w = busRead B regs' mem dev cycle a w := by
  unfold busRead
  simp [h]

/-- A word that a machinery channel copies into a register of channel `j`. -/
theorem Core.beat_copies {c : Core δ} {i j r : Nat} (hm : Copies B.v (c.dma.ch i).ctrl i)
    (herased : c.dma.erase = c.dma) (hwrite : (c.dma.ch i).writeAddr = chanRegAddr j r)
    (hj : j < B.v.nChannels) (hr : r < chanStride) (hal : r % 4 = 0) :
    c.beat B i =
      (busRead B (c.dma.regRead B.v) c.mem c.dev (c.cycle + 1) (c.dma.ch i).readAddr .word).map
        fun x => ⟨(c.dma.chanWrite B.v j r x.1 (x.1 ≠ 0)).deliver B.v i (chanRegAddr j r) x.1 .word,
          c.mem, x.2, c.cycle + 1⟩ := by
  unfold beat move get
  simp only [hm.size]
  cases busRead B (c.dma.regRead B.v) c.mem c.dev (c.cycle + 1) (c.dma.ch i).readAddr .word with
  | error f => rfl
  | ok x =>
    simp only [Except.map, bind, Except.bind, hm.swap, hwrite]
    rw [put_chanReg hj hr hal]
    simp [herased, pure, Except.pure]

theorem chanRegAddr_add (i r n : Nat) :
    chanRegAddr i r + BitVec.ofNat 32 n = chanRegAddr i (r + n) := by
  unfold chanRegAddr
  rw [← BitVec.ofNat_add, Nat.add_assoc]

theorem lt_sixteen {v : Variant} {i : Nat} (h : i < v.nChannels) : i < 16 :=
  Nat.lt_of_lt_of_le h v.nChannels_le

namespace Sequential

/-- Three distinct channels, and a fetch that can be started. -/
structure Front.Valid (F : Front) (v : Variant) (i : Nat) : Prop where
  fetch_lt : F.fetch < v.nChannels
  lt : i < v.nChannels
  aux_lt : F.aux < v.nChannels
  fetch_ne : F.fetch ≠ i
  ne_aux : i ≠ F.aux
  fetch_aux : F.fetch ≠ F.aux
  copies : Copies v F.ctrl F.fetch
  count : v.transCount F.words = F.words
  mode : v.transMode F.words = 0
  words : F.words ≠ 0
  home : F.home ≠ 0

namespace State

variable {F : Front} {i : Nat} (S : State δ) {f f' e e' : Channel} {v : Variant}

/-! ## The machine at a state -/

/-- The machine with fetch at `f` and the running channel at `e`. -/
def core (F : Front) (i : Nat) (f e : Channel) : Core δ := ⟨S.dma F i f e, S.mem, S.dev, S.cycle⟩

theorem dma_fetch (h : F.fetch ≠ i) : (S.dma F i f e).ch F.fetch = f := by
  unfold dma
  rw [Dma.setCh_other _ h, Dma.setCh_same]

theorem dma_run : (S.dma F i f e).ch i = e := Dma.setCh_same ..

theorem dma_other {j : Nat} (hf : j ≠ F.fetch) (he : j ≠ i) :
    (S.dma F i f e).ch j = S.regs.ch j := by
  unfold dma
  rw [Dma.setCh_other _ he, Dma.setCh_other _ hf]
  rfl

theorem dma_setCh_fetch (h : F.fetch ≠ i) : (S.dma F i f e).setCh F.fetch f' = S.dma F i f' e := by
  unfold dma
  rw [Dma.setCh_comm _ h.symm, Dma.setCh_setCh]

theorem dma_setCh_run : (S.dma F i f e).setCh i e' = S.dma F i f e' := by
  unfold dma
  rw [Dma.setCh_setCh]

theorem dma_setCh_other {j : Nat} {c : Channel} (hf : j ≠ F.fetch) (he : j ≠ i) :
    (S.dma F i f e).setCh j c = ({ S with regs := S.regs.setCh j c } : State δ).dma F i f e := by
  unfold dma
  rw [Dma.setCh_comm _ he.symm, Dma.setCh_comm _ hf.symm]
  rfl

theorem dma_raise (j : Nat) :
    (S.dma F i f e).raise j = ({ S with regs := S.regs.raise j } : State δ).dma F i f e := rfl

theorem dma_self (h : S.regs.withSniff S.sniffCtrl S.sniffData = S.regs) :
    S.dma F i (S.regs.ch F.fetch) (S.regs.ch i) = S.regs := by
  unfold dma
  rw [h, Dma.setCh_self, Dma.setCh_self]

/-- Which channel is singled out does not matter, once its registers are where the
    other channels' are. -/
theorem dma_rebase {k : Nat} (hi : F.fetch ≠ i) (hk : F.fetch ≠ k) :
    S.dma F i f e = ({ S with regs := S.regs.setCh i e } : State δ).dma F k f ((S.regs.setCh i e).ch k) := by
  have hself : ((S.regs.setCh i e).withSniff S.sniffCtrl S.sniffData).setCh k ((S.regs.setCh i e).ch k) =
      (S.regs.setCh i e).withSniff S.sniffCtrl S.sniffData :=
    Dma.setCh_self ((S.regs.setCh i e).withSniff S.sniffCtrl S.sniffData) k
  unfold dma
  rw [Dma.setCh_comm _ hi, Dma.setCh_comm _ hk, hself]
  rfl

theorem dma_erase (hr : S.regs.erase = S.regs) (hf : f.erase = f) (he : e.erase = e) :
    (S.dma F i f e).erase = S.dma F i f e := by
  unfold dma
  rw [Dma.erase_setCh, Dma.erase_setCh, hf, he]
  rw [show (S.regs.withSniff S.sniffCtrl S.sniffData).erase =
    S.regs.erase.withSniff S.sniffCtrl S.sniffData from rfl, hr]

/-- No channel but fetch and `i` runs. -/
structure Calm (F : Front) (i : Nat) (S : State δ) : Prop where
  erased : S.regs.erase = S.regs
  idle : ∀ j, j ≠ F.fetch → j ≠ i → (S.regs.ch j).busy = false

/-- A channel between two instructions. -/
structure Idle (e : Channel) : Prop where
  erased : e.erase = e
  free : e.busy = false
  alive : e.wedged = false

theorem Idle.writeChan (he : Idle e) (v : Variant) (reg : Dma.Reg) (x : Word) :
    Idle (Dma.writeChan v e reg x) := by
  obtain ⟨herased, hfree, halive⟩ := he
  refine ⟨?_, ?_, ?_⟩
  · rw [Dma.erase_writeChan, herased]
  · cases reg <;> exact hfree
  · cases reg <;> exact halive

/-! ## Fetch -/

/-- Fetch about to copy a word to register `r` of channel `i`. -/
def fetching (F : Front) (i : Nat) (S : State δ) (r : Nat) (left : Word) (e : Channel) : Core δ :=
  S.core F i (F.chan S.pc (chanRegAddr i r) left true) e

theorem fetching_beat (hv : F.Valid B.v i) (hS : S.regs.erase = S.regs) (he : e.erase = e)
    (hpc : inDMA S.pc = false) {r : Nat} (hr : r < chanStride) (hal : r % 4 = 0) :
    (S.fetching F i r left e).beat B F.fetch = (S.fetchWord B).map fun x =>
      ⟨((S.dma F i (F.chan S.pc (chanRegAddr i r) left true) e).chanWrite B.v i r x.1
          (x.1 ≠ 0)).deliver B.v F.fetch (chanRegAddr i r) x.1 .word,
        x.2.mem, x.2.dev, x.2.cycle⟩ := by
  have hf := S.dma_fetch (f := F.chan S.pc (chanRegAddr i r) left true) (e := e) hv.fetch_ne
  have hm : Copies B.v (F.chan S.pc (chanRegAddr i r) left true).ctrl F.fetch := hv.copies
  rw [← hf] at hm
  unfold fetching core
  rw [Core.beat_copies (j := i) (r := r) hm (S.dma_erase hS rfl he) (hf.symm ▸ rfl) hv.lt hr hal]
  simp only [hf]
  have hread : ∀ regs, busRead B regs S.mem S.dev (S.cycle + 1)
      (F.chan S.pc (chanRegAddr i r) left true).readAddr .word =
      busRead B (fun _ => 0) S.mem S.dev (S.cycle + 1) S.pc .word := fun _ => busRead_regs hpc
  rw [hread]
  unfold fetchWord
  cases busRead B (fun _ => 0) S.mem S.dev (S.cycle + 1) S.pc .word <;> rfl

theorem fetchWord_ok {S S' : State δ} {x : Word} (h : S.fetchWord B = .ok (x, S')) :
    ∃ dev, S' = { S with pc := S.pc + 4, dev := dev, cycle := S.cycle + 1 } := by
  unfold fetchWord at h
  cases hread : busRead B (fun _ => 0) S.mem S.dev (S.cycle + 1) S.pc .word with
  | error f => rw [hread] at h; cases h
  | ok r =>
    rw [hread] at h
    cases h
    exact ⟨r.2, rfl⟩

theorem fetchWord_pc {S S' : State δ} {x : Word} (h : S.fetchWord B = .ok (x, S')) :
    S'.pc = S.pc + 4 := by
  obtain ⟨dev, rfl⟩ := fetchWord_ok h
  rfl

theorem Calm.fetchWord {S S' : State δ} {x : Word} (hS : S.Calm F i)
    (h : S.fetchWord B = .ok (x, S')) : S'.Calm F i := by
  obtain ⟨dev, rfl⟩ := fetchWord_ok h
  exact ⟨hS.erased, hS.idle⟩

/-- Fetch's side of a word. -/
theorem fetching_deliver (hv : F.Valid B.v i) {r : Nat} {left x : Word} (hr : r < chanStride)
    (hleft : left ≠ 0) {S' : State δ} {d : Dma}
    (hd : d = S'.dma F i (F.chan S.pc (chanRegAddr i r) left true) e) :
    d.deliver B.v F.fetch (chanRegAddr i r) x .word =
      (S'.dma F i (step B.v (F.chan S.pc (chanRegAddr i r) left true)) e).conclude B.v F.fetch := by
  have hf : d.ch F.fetch = F.chan S.pc (chanRegAddr i r) left true := by
    rw [hd]
    exact S'.dma_fetch hv.fetch_ne
  have hm : Copies B.v (d.ch F.fetch).ctrl F.fetch := by
    rw [hf]
    exact hv.copies
  have hmode : (d.ch F.fetch).mode ≠ transModeEndless := by
    rw [hf]
    exact (by decide : (0 : Word) ≠ transModeEndless)
  rw [hm.deliver hmode (hf.symm ▸ hleft)
    (ownCount_chanRegAddr (lt_sixteen hv.fetch_lt) (lt_sixteen hv.lt) hr hv.fetch_ne)]
  rw [hf, hd, dma_setCh_fetch _ hv.fetch_ne]

section

variable (hv : F.Valid B.v i) (hS : S.Calm F i) (he : Idle e)
include hv hS he

theorem fetching_sole (r : Nat)
    (left : Word) : (S.fetching F i r left e).dma.Sole B.v F.fetch := by
  have hf := S.dma_fetch (f := F.chan S.pc (chanRegAddr i r) left true) (e := e) hv.fetch_ne
  unfold fetching core
  refine ⟨hv.fetch_lt, ?_, ?_, ?_, ?_, ?_⟩
  · rw [hf]; rfl
  · rw [hf]; exact hv.copies.enabled
  · rw [hf]; exact hv.copies.unpaced
  · rw [hf]; rfl
  · intro j hj
    by_cases hje : j = i
    · subst hje; rw [dma_run]; exact he.free
    · rw [S.dma_other hj hje]; exact hS.idle j hj hje

theorem leads_fetching (r : Nat)
    (hshort : left.toNat < Machine.burstMin) :
    (S.fetching F i r left e).Leads B ((S.fetching F i r left e).beat B F.fetch) := by
  apply Core.Leads.beat (S.fetching_sole hv hS he r left)
  unfold fetching core
  rw [dma_fetch _ hv.fetch_ne]
  exact hshort

/-- A word of an instruction that only fills a register. -/
theorem leads_store
    (hpc : inDMA S.pc = false) {r r' : Nat} (left : Word) (reg : Dma.Reg) (hr : r < chanStride)
    (hal : r % 4 = 0) (hreg : Dma.regOf r = some reg) (htrig : Dma.isTrig r = false)
    (hleft : left ≠ 0) (hmore : left - 1 ≠ 0) (hshort : left.toNat < Machine.burstMin)
    (hstep : step B.v (F.chan S.pc (chanRegAddr i r) left true) =
      F.chan (S.pc + 4) (chanRegAddr i r') (left - 1) true) :
    (S.fetching F i r left e).Leads B ((S.fetchWord B).map fun x =>
      x.2.fetching F i r' (left - 1) (Dma.writeChan B.v e reg x.1)) := by
  have hbeat : (S.fetching F i r left e).beat B F.fetch = (S.fetchWord B).map fun x =>
      x.2.fetching F i r' (left - 1) (Dma.writeChan B.v e reg x.1) := by
    rw [S.fetching_beat hv hS.erased he.erased hpc hr hal]
    cases hword : S.fetchWord B with
    | error f => rfl
    | ok y =>
      obtain ⟨x, S'⟩ := y
      obtain ⟨dev, rfl⟩ := fetchWord_ok hword
      have hstore : (S.dma F i (F.chan S.pc (chanRegAddr i r) left true) e).chanWrite B.v i r x
          (x ≠ 0) =
          S.dma F i (F.chan S.pc (chanRegAddr i r) left true) (Dma.writeChan B.v e reg x) := by
        unfold Dma.chanWrite Dma.storeReg
        rw [htrig, if_neg (by decide), hreg]
        simp [dma_run, dma_setCh_run]
      simp only [Except.map]
      rw [hstore, S.fetching_deliver hv hr hleft rfl, hstep]
      unfold Dma.conclude
      rw [dma_fetch _ hv.fetch_ne, if_neg (fun h => hmore h.1)]
      rfl
  rw [← hbeat]
  exact S.leads_fetching hv hS he r hshort

end

/-- The machine when the last word of an instruction has been copied to register
    `r` of the running channel, here at `e`, and its trigger has fired. -/
def started (B : Board δ) (F : Front) (i : Nat) (r : Nat) (reg : Dma.Reg) (e : Channel) (x : Word)
    (S : State δ) : Core δ :=
  ⟨((S.dma F i (F.chan (S.pc - 4) (chanRegAddr i r) 1 true) (Dma.writeChan B.v e reg x)).trigger B.v
      Dma.zeroDepthMax i (x ≠ 0) e.ctrl).deliver B.v F.fetch (chanRegAddr i r) x .word,
    S.mem, S.dev, S.cycle⟩

theorem leads_trigger (hv : F.Valid B.v i) (hS : S.Calm F i) (he : Idle e)
    (hpc : inDMA S.pc = false) {r : Nat} {reg : Dma.Reg} (hr : r < chanStride) (hal : r % 4 = 0)
    (hreg : Dma.regOf r = some reg) (htrig : Dma.isTrig r = true) :
    (S.fetching F i r 1 e).Leads B ((S.fetchWord B).map fun x =>
      started B F i r reg e x.1 x.2) := by
  have hbeat : (S.fetching F i r 1 e).beat B F.fetch = (S.fetchWord B).map fun x =>
      started B F i r reg e x.1 x.2 := by
    rw [S.fetching_beat hv hS.erased he.erased hpc hr hal]
    cases hword : S.fetchWord B with
    | error f => rfl
    | ok y =>
      obtain ⟨x, S'⟩ := y
      obtain ⟨dev, rfl⟩ := fetchWord_ok hword
      have hstore : (S.dma F i (F.chan S.pc (chanRegAddr i r) 1 true) e).chanWrite B.v i r x
          (x ≠ 0) =
          (S.dma F i (F.chan S.pc (chanRegAddr i r) 1 true) (Dma.writeChan B.v e reg x)).trigger B.v
            Dma.zeroDepthMax i (x ≠ 0) e.ctrl := by
        unfold Dma.chanWrite Dma.storeReg
        rw [if_pos htrig, hreg]
        simp [dma_run, dma_setCh_run]
      simp only [Except.map, hstore, started, BitVec.add_sub_cancel]
      rfl
  rw [← hbeat]
  exact S.leads_fetching hv hS he r (by decide)

/-- Fetch a word further. -/
theorem step_chan {mask pc write write' left : Word}
    (hstrides : ({ ctrl := F.ctrl } : Channel).strideR v = 4 ∧
      ({ ctrl := F.ctrl } : Channel).strideW v = 4 ∧ ({ ctrl := F.ctrl } : Channel).ringMaskR v = 0 ∧
      ({ ctrl := F.ctrl } : Channel).ringMaskW v = mask)
    (h : Dma.advanceAddr write 4 mask = write') :
    step v (F.chan pc write left true) = F.chan (pc + 4) write' (left - 1) true := by
  obtain ⟨hR, hW, hrR, hrW⟩ := hstrides
  generalize hc : F.chan pc write left true = c
  have hR' : c.strideR v = 4 := by rw [← hc]; exact hR
  have hW' : c.strideW v = 4 := by rw [← hc]; exact hW
  have hrR' : c.ringMaskR v = 0 := by rw [← hc]; exact hrR
  have hrW' : c.ringMaskW v = mask := by rw [← hc]; exact hrW
  unfold step Dma.advance
  rw [hR', hW', hrR', hrW', ← hc, ← h]
  rfl

/-- The last word of an instruction goes to register `r`, and fetch to its window. -/
def Lands (B : Board δ) (F : Front) (i r : Nat) (S : State δ) : Prop :=
  step B.v (F.chan (S.pc - 4) (chanRegAddr i r) 1 true) = F.chan S.pc S.window 0 true

/-- After the last word fetch is at rest, at the window its pointer has come to. -/
theorem started_of_trigger (hv : F.Valid B.v i) {r : Nat} {g : Dma.Reg} {x : Word}
    (hr : r < chanStride) (S' : State δ) (hlands : S.Lands B F i r)
    (h : (S.dma F i (F.chan (S.pc - 4) (chanRegAddr i r) 1 true) (Dma.writeChan B.v e g x)).trigger
        B.v Dma.zeroDepthMax i (x ≠ 0) e.ctrl =
      S'.dma F i (F.chan (S.pc - 4) (chanRegAddr i r) 1 true) e')
    (hsame : S' = { S with regs := S'.regs }) :
    started B F i r g e x S = S'.core F i (S.rest F) e' := by
  have hf := S'.dma_fetch (F := F) (i := i) (f := F.chan S.pc S.window 0 true) (e := e') hv.fetch_ne
  have hm : Copies B.v ((S'.dma F i (F.chan S.pc S.window 0 true) e').ch F.fetch).ctrl F.fetch := by
    rw [hf]
    exact hv.copies
  unfold started
  rw [fetching_deliver ({ S with pc := S.pc - 4 } : State δ) hv hr (by decide) h, hlands, hm.conclude,
    hf, dma_setCh_fetch _ hv.fetch_ne]
  · rw [hsame]
    rfl
  · rw [hf]; exact (by decide : (0 : Word) ≠ transModeTriggerSelf)
  · rw [hf]; rfl
  · rw [hf]; rfl

/-! ## Data -/

/-- The running channel at `c`, with fetch at rest. -/
def executing (F : Front) (i : Nat) (S : State δ) (c : Channel) : Core δ :=
  S.core F i (S.rest F) c

theorem target_cases {norm : Nat} {t : Target} (h : F.target v i norm = t)
    (hother : t ≠ .other) : t = .sniffCtrl ∧ norm = v.offSniffCtrl ∨
      t = .sniffData ∧ norm = v.offSniffData ∨
      ∃ j r reg, j < v.nChannels ∧ r < chanStride ∧ norm = j * chanStride + r ∧
      Dma.isTrig r = false ∧ Dma.regOf r = some reg ∧
      (t = .pc ∧ j = F.fetch ∧ reg = .readAddr ∨ t = .window ∧ j = F.fetch ∧ reg = .writeAddr ∨
        t = .count j ∧ j ≠ F.fetch ∧ j ≠ i ∧ reg = .transCount) := by
  unfold Front.target at h
  simp only at h
  split at h
  next hnorm => exact .inl ⟨h.symm, hnorm⟩
  split at h
  next hnorm => exact .inr (.inl ⟨h.symm, hnorm⟩)
  split at h
  next hchan =>
    right
    right
    refine ⟨norm / chanStride, norm % chanStride, ?_⟩
    have hlt : norm / chanStride < v.nChannels := by
      simp only [chanStride] at *
      omega
    have hmod : norm % chanStride < chanStride := Nat.mod_lt _ (by decide)
    have hsplit : norm = norm / chanStride * chanStride + norm % chanStride := by
      simp only [chanStride]
      omega
    split at h
    next hreg =>
      split at h
      next hj => exact ⟨_, hlt, hmod, hsplit, hchan.2, hreg, .inl ⟨h.symm, hj, rfl⟩⟩
      next => exact absurd h.symm hother
    next hreg =>
      split at h
      next hj => exact ⟨_, hlt, hmod, hsplit, hchan.2, hreg, .inr (.inl ⟨h.symm, hj, rfl⟩)⟩
      next => exact absurd h.symm hother
    next hreg =>
      split at h
      next => exact absurd h.symm hother
      next hj =>
        rw [not_or] at hj
        exact ⟨_, hlt, hmod, hsplit, hchan.2, hreg, .inr (.inr ⟨h.symm, hj.1, hj.2, rfl⟩)⟩
    next => exact absurd h.symm hother
  next => exact absurd h.symm hother

end State

section

variable (d : Dma) (v : Variant)

theorem regRead_sniffCtrl : d.regRead v v.offSniffCtrl = d.sniffCtrl := by
  cases v <;> rfl

theorem regRead_sniffData : d.regRead v v.offSniffData = d.sniffOut := by
  cases v <;> rfl

theorem regWrite_sniffCtrl (now : Nat) (x : Word) (raw : Bool) :
    d.regWrite v now v.offSniffCtrl x raw = { d with sniffCtrl := x } := by
  cases v <;> rfl

theorem regWrite_sniffData (now : Nat) (x : Word) (raw : Bool) :
    d.regWrite v now v.offSniffData x raw = { d with sniffData := x } := by
  cases v <;> rfl

end

namespace State

variable {F : Front} {i : Nat} (S : State δ) {f f' e e' : Channel}

/-- A write to a register by an instruction, on the register block. -/
theorem dma_putReg (hv : F.Valid B.v i) {norm now op : Nat} {x : Word}
    (h : F.target B.v i norm ≠ .other) :
    (S.dma F i (S.rest F) e).regWrite B.v now norm
        (applyAlias ((S.dma F i (S.rest F) e).regRead B.v norm) x op) raw =
      (S.putReg (F.target B.v i norm) x op).dma F i
        ((S.putReg (F.target B.v i norm) x op).rest F) e := by
  generalize ht : F.target B.v i norm = t at h
  rcases target_cases ht h with ⟨rfl, rfl⟩ | ⟨rfl, rfl⟩ |
    ⟨j, r, reg, hj, hr, rfl, htrig, hreg, hcases⟩
  · rw [regRead_sniffCtrl, regWrite_sniffCtrl]
    rfl
  · rw [regRead_sniffData, regWrite_sniffData]
    rfl
  rw [Dma.regWrite_chan hj hr, Dma.regRead_chan hj hr]
  unfold Dma.chanWrite Dma.storeReg Dma.chanRead
  rw [htrig, hreg]
  rcases hcases with ⟨rfl, rfl, rfl⟩ | ⟨rfl, rfl, rfl⟩ | ⟨rfl, hjf, hji, rfl⟩
  · simp only [dma_fetch _ hv.fetch_ne, dma_setCh_fetch _ hv.fetch_ne]
    rfl
  · simp only [dma_fetch _ hv.fetch_ne, dma_setCh_fetch _ hv.fetch_ne]
    rfl
  · simp only [dma_other _ hjf hji, dma_setCh_other _ hjf hji]
    rfl

theorem putReg_erase (hS : S.regs.erase = S.regs) (t : Target) (x : Word) (op : Nat) :
    (S.putReg t x op).regs.erase = (S.putReg t x op).regs := by
  cases t with
  | count j =>
    have hch : (S.regs.ch j).erase = S.regs.ch j := congrArg (fun d : Dma => d.ch j) hS
    unfold putReg
    rw [Dma.erase_setCh, hS]
    exact congrArg (fun c => S.regs.setCh j { c with reload := applyAlias (S.regs.ch j).remaining x op })
      hch
  | sniffCtrl => exact hS
  | sniffData => exact hS
  | pc => exact hS
  | window => exact hS
  | other => exact hS

/-- A write address of an instruction on channel `i`: of the DMA registers, only
    those the sequential view knows. -/
def Reaches (B : Board δ) (F : Front) (i : Nat) (addr : Word) : Prop :=
  inDMA addr = true → F.target B.v i (aliasOp addr).1 ≠ .other

section

variable {c : Channel} (hv : F.Valid B.v i) (hS : S.regs.erase = S.regs) (hc : c.erase = c)
include hv hS hc

theorem executing_putReg {norm op : Nat} {x : Word} (h : F.target B.v i norm ≠ .other) :
    Core.mk ((S.executing F i c).dma.regWrite B.v S.cycle norm
        (applyAlias ((S.executing F i c).dma.regRead B.v norm) x op) raw).erase S.mem S.dev S.cycle =
      (S.putReg (F.target B.v i norm) x op).executing F i c := by
  have hsame : ∀ t, (S.putReg t x op).mem = S.mem ∧ (S.putReg t x op).dev = S.dev ∧
      (S.putReg t x op).cycle = S.cycle := by
    intro t
    cases t <;> exact ⟨rfl, rfl, rfl⟩
  obtain ⟨hmem, hdev, hcycle⟩ := hsame (F.target B.v i norm)
  unfold executing core
  rw [S.dma_putReg hv h, dma_erase _ (S.putReg_erase hS _ x op) rfl hc, hmem, hdev, hcycle]

/-- A write by an instruction, on the machine and in the sequential view. -/
theorem executing_put {addr x : Word} {w : Width} (hw : Reaches B F i addr) :
    (S.executing F i c).put B addr x w =
      (S.put B F i addr x w).map fun S => S.executing F i c := by
  unfold Core.put put
  by_cases hal : addr.toNat % w.bytes ≠ 0
  · rw [if_pos hal, if_pos hal]; rfl
  rw [if_neg hal, if_neg hal]
  by_cases hdma : inDMA addr = true
  · rw [if_pos hdma, if_pos hdma]
    have hreg := hw hdma
    exact congrArg Except.ok (S.executing_putReg hv hS hc hreg)
  · rw [if_neg hdma, if_neg hdma]
    unfold executing core
    cases busWrite B S.mem S.dev S.cycle addr x w <;> rfl

end

/-- The sniffer's turn changes its accumulator only. -/
theorem sniff_eq (i : Nat) (x : Word) (w : Width) :
    ∃ acc, S.sniff i x w = { S with sniffData := acc } := by
  unfold sniff
  split
  · exact ⟨S.sniffData, rfl⟩
  · exact ⟨_, rfl⟩

theorem dma_sniff (x : Word) (w : Width) :
    (S.dma F i f e).sniff i x w = (S.sniff i x w).dma F i f e := by
  unfold Dma.sniff sniff
  by_cases h : S.sniffCtrl &&& sniffCtrlEN = 0 ∨ sniffDmach S.sniffCtrl ≠ i
  · rw [if_pos h]
    exact if_pos h
  · rw [if_neg h]
    exact if_neg h

/-- The running channel's side of a datum. -/
theorem dma_deliver (F : Front) (i : Nat) (f : Channel) (v : Variant) {c : Channel}
    (x : Word) (w : Width) (hmode : c.mode ≠ transModeEndless) (hrem : c.remaining ≠ 0)
    (hown : Dma.ownCount i addr = false) :
    (S.dma F i f c).deliver v i addr x w =
      ((if c.sniffEn v then S.sniff i x w else S).dma F i f (step v c)).conclude v i := by
  have hsettle : ∀ S : State δ, (S.dma F i f c).settle v i addr =
      (S.dma F i f (step v c)).conclude v i := by
    intro S
    have hch := S.dma_run (F := F) (i := i) (f := f) (e := c)
    rw [Dma.settle_step (by rw [hch]; exact hmode) (by rw [hch]; exact hrem) hown, hch, dma_setCh_run]
  unfold Dma.deliver
  rw [dma_run]
  split
  · rw [dma_sniff, hsettle]
  · rw [hsettle]

theorem ownCount_of_reaches (hv : F.Valid B.v i) (hw : Reaches B F i addr) :
    Dma.ownCount i addr = false := by
  by_cases hdma : inDMA addr = true
  · -- the registers an instruction may write are not the running channel's own
    have hlt := lt_sixteen hv.lt
    have hnorm : (aliasOp addr).1 < i * chanStride ∨ i * chanStride + chanStride ≤ (aliasOp addr).1 := by
      have ht := hw hdma
      have hn := hv.lt
      rcases target_cases rfl ht with ⟨-, hnorm⟩ | ⟨-, hnorm⟩ |
        ⟨j, r, reg, -, hr, hsplit, -, -, hcases⟩
      · rw [hnorm]; right
        cases hvar : B.v <;> rw [hvar] at hn <;>
          simp only [Variant.nChannels, Variant.offSniffCtrl, chanStride] at * <;> omega
      · rw [hnorm]; right
        cases hvar : B.v <;> rw [hvar] at hn <;>
          simp only [Variant.nChannels, Variant.offSniffData, chanStride] at * <;> omega
      · have hji : j ≠ i := by
          rcases hcases with ⟨-, rfl, -⟩ | ⟨-, rfl, -⟩ | ⟨-, -, h, -⟩
          · exact hv.fetch_ne
          · exact hv.fetch_ne
          · exact h
        simp only [chanStride] at *
        omega
    unfold Dma.ownCount
    rw [Bool.and_eq_false_iff]
    rw [decide_eq_false_iff_not]
    simp only [aliasOp, chanRegAddr, dmaBase, chanStride, BitVec.toNat_sub, BitVec.toNat_ofNat] at *
    omega
  · exact ownCount_of_not_inDMA (lt_sixteen hv.lt) (by simpa using hdma)

/-- One datum of an instruction, on the machine and in the sequential view. -/
theorem executing_beat (hv : F.Valid B.v i) (hS : S.regs.erase = S.regs) {c : Channel}
    (hc : c.erase = c) (hmode : c.mode ≠ transModeEndless) (hrem : c.remaining ≠ 0)
    (hw : ∀ w, ctrlDataSize c.ctrl = some w → Reaches B F i c.writeAddr) :
    (S.executing F i c).beat B i = (S.datum B F i c).map fun S =>
      ⟨(S.dma F i (S.rest F) (step B.v c)).conclude B.v i, S.mem, S.dev, S.cycle⟩ := by
  unfold Core.beat Core.move datum
  have hch : (S.executing F i c).dma.ch i = c := S.dma_run
  simp only [hch]
  cases hsize : ctrlDataSize c.ctrl with
  | none => rfl
  | some w =>
    have hget : ({ S.executing F i c with cycle := S.cycle + 1 } : Core δ).get B c.readAddr w =
        (busRead B ((S.dma F i (S.rest F) c).regRead B.v) S.mem S.dev (S.cycle + 1) c.readAddr w).map
          fun r =>
            (r.1, ({ S with dev := r.2, cycle := S.cycle + 1 } : State δ).executing F i c) := rfl
    have hcycle : (S.executing F i c).cycle = S.cycle := rfl
    simp only [hcycle, hget]
    cases busRead B ((S.dma F i (S.rest F) c).regRead B.v) S.mem S.dev (S.cycle + 1) c.readAddr w with
    | error f => rfl
    | ok r =>
      simp only [Except.map, bind, Except.bind]
      have hput := executing_put ({ S with dev := r.2, cycle := S.cycle + 1 } : State δ) (w := w)
        hv hS hc (x := c.swap B.v r.1 w) (hw w hsize)
      rw [hput]
      cases ({ S with dev := r.2, cycle := S.cycle + 1 } : State δ).put B F i c.writeAddr
          (c.swap B.v r.1 w) w with
      | error f => rfl
      | ok S' =>
        have hdeliver := S'.dma_deliver F i (S'.rest F) B.v (c.swap B.v r.1 w) w hmode hrem
          (ownCount_of_reaches hv (hw w hsize))
        refine congrArg Except.ok ?_
        unfold executing core
        rw [hdeliver]
        split
        · obtain ⟨acc, hacc⟩ := S'.sniff_eq i (c.swap B.v r.1 w) w
          rw [hacc]
          rfl
        · rfl

theorem step_erase {v : Variant} {c : Channel} (hc : c.erase = c) :
    (step v c).erase = step v c := by
  have hpush : (step v c).erase = step v c.erase := rfl
  rw [hpush, hc]

theorem step_iterate {v : Variant} (n : Nat) : ∀ c : Channel, n ≤ c.remaining.toNat →
    ((step v)^[n] c).ctrl = c.ctrl ∧ ((step v)^[n] c).mode = c.mode ∧
      ((step v)^[n] c).busy = c.busy ∧ ((step v)^[n] c).wedged = c.wedged ∧
      ((step v)^[n] c).remaining.toNat = c.remaining.toNat - n := by
  induction n with
  | zero => intro c _; exact ⟨rfl, rfl, rfl, rfl, rfl⟩
  | succ n ih =>
    intro c hn
    have hpred : (step v c).remaining.toNat = c.remaining.toNat - 1 := by
      change (c.remaining - 1).toNat = c.remaining.toNat - 1
      bv_omega
    obtain ⟨hctrl, hmode, hbusy, hwedged, hrem⟩ := ih (step v c) (by omega)
    rw [Function.iterate_succ_apply]
    exact ⟨hctrl, hmode, hbusy, hwedged, by omega⟩

theorem step_iterate_erase {v : Variant} {c : Channel} (hc : c.erase = c) (n : Nat) :
    ((step v)^[n] c).erase = (step v)^[n] c := by
  induction n with
  | zero => exact hc
  | succ n ih => rw [Function.iterate_succ_apply', step_erase ih]

theorem dma_conclude_of_left (hrem : e.remaining ≠ 0) (v : Variant) :
    (S.dma F i f e).conclude v i = S.dma F i f e := by
  unfold Dma.conclude
  rw [dma_run, if_neg fun h => hrem h.1]

theorem transfer_succ (n : Nat) : ∀ (c : Channel) (S : State δ), transfer B F i (n + 1) c S =
    (transfer B F i n c S).bind fun S => S.datum B F i ((step B.v)^[n] c) := by
  induction n with
  | zero =>
    intro c S
    unfold transfer
    cases h : S.datum B F i c <;> exact h.symm
  | succ n ih =>
    intro c S
    rw [transfer, transfer]
    cases S.datum B F i c with
    | error f => rfl
    | ok S' => exact ih (step B.v c) S'

/-- What every datum keeps, a transfer keeps. -/
theorem transfer_invariant {P : State δ → Prop} {c : Channel} {n : Nat}
    (hdatum : ∀ j < n, ∀ S S', P S → S.datum B F i ((step B.v)^[j] c) = .ok S' → P S') {k : Nat}
    (hk : k ≤ n) {S S' : State δ} (hS : P S) (h : transfer B F i k c S = .ok S') : P S' := by
  induction k generalizing S' with
  | zero =>
    cases h
    exact hS
  | succ k ih =>
    rw [transfer_succ] at h
    cases hpre : transfer B F i k c S with
    | error f => rw [hpre] at h; cases h
    | ok S₁ =>
      rw [hpre] at h
      exact hdatum k hk S₁ S' (ih (Nat.le_of_lt hk) hpre) h

/-- What every datum of a transfer of `n` finds: no other channel running, and a
    write address it may use. -/
def Runs (B : Board δ) (F : Front) (i n : Nat) (c : Channel) (S : State δ) : Prop :=
  ∀ j < n, ∀ S', transfer B F i j c S = .ok S' →
    S'.Calm F i ∧ ∀ w, ctrlDataSize c.ctrl = some w → Reaches B F i ((step B.v)^[j] c).writeAddr

theorem Runs.head {n : Nat} {c : Channel} {S : State δ} (h : Runs B F i (n + 1) c S) :
    S.Calm F i ∧ ∀ w, ctrlDataSize c.ctrl = some w → Reaches B F i c.writeAddr :=
  h 0 (Nat.succ_pos n) S rfl

theorem Runs.tail {n : Nat} {c : Channel} {S S' : State δ} (h : Runs B F i (n + 1) c S)
    (hdatum : S.datum B F i c = .ok S') : Runs B F i n (step B.v c) S' := by
  intro j hj S'' hrun
  have hnext := h (j + 1) (Nat.succ_lt_succ hj) S''
  rw [transfer, hdatum] at hnext
  exact hnext hrun

/-- The data of an instruction, on the machine and in the sequential view. -/
theorem executing_beats (hv : F.Valid B.v i) (n : Nat) : ∀ (S : State δ) (c : Channel),
    c.erase = c → c.mode ≠ transModeEndless → c.remaining ≠ 0 → n ≤ c.remaining.toNat →
    Runs B F i n c S →
    iter (Core.beat B i) n (S.executing F i c) =
      (transfer B F i n c S).map fun S =>
        ⟨(S.dma F i (S.rest F) ((step B.v)^[n] c)).conclude B.v i, S.mem, S.dev, S.cycle⟩ := by
  induction n with
  | zero =>
    intro S c _ _ hrem _ _
    rw [iter_zero]
    unfold transfer executing core
    simp only [Except.map, Function.iterate_zero, id]
    rw [S.dma_conclude_of_left hrem]
  | succ n ih =>
    intro S c hc hmode hrem hn hruns
    obtain ⟨hS, hw⟩ := hruns.head
    rw [iter_succ, S.executing_beat hv hS.erased hc hmode hrem hw, transfer]
    cases hdatum : S.datum B F i c with
    | error f => rfl
    | ok S' =>
      simp only [Except.map, Except.bind, Function.iterate_succ_apply]
      have hpred : (step B.v c).remaining.toNat = c.remaining.toNat - 1 :=
        (step_iterate 1 c (by omega)).2.2.2.2
      by_cases hlast : (step B.v c).remaining = 0
      · -- the last datum
        obtain rfl : n = 0 := by
          rw [hlast] at hpred
          simp at hpred
          omega
        rfl
      · rw [S'.dma_conclude_of_left hlast]
        exact ih S' (step B.v c) (step_erase hc) hmode hlast (by omega) (hruns.tail hdatum)

theorem executing_sole (hv : F.Valid B.v i) (hS : S.Calm F i) {c : Channel}
    (henabled : c.enabled = true) (hunpaced : c.treq B.v = treqPermanent) (hbusy : c.busy = true)
    (halive : c.wedged = false) : (S.executing F i c).dma.Sole B.v i := by
  unfold executing core
  refine ⟨hv.lt, ?_, ?_, ?_, ?_, ?_⟩
  · rw [dma_run]; exact hbusy
  · rw [dma_run]; exact henabled
  · rw [dma_run]; exact hunpaced
  · rw [dma_run]; exact halive
  · intro j hj
    by_cases hjf : j = F.fetch
    · subst hjf
      rw [dma_fetch _ hv.fetch_ne]
      rfl
    · rw [S.dma_other hjf hj]
      exact hS.idle j hjf hj

/-- A channel that has been started on an instruction. -/
structure Launched (v : Variant) (c : Channel) : Prop where
  erased : c.erase = c
  enabled : c.enabled = true
  unpaced : c.treq v = treqPermanent
  busy : c.busy = true
  alive : c.wedged = false
  once : c.mode ≠ transModeTriggerSelf ∧ c.mode ≠ transModeEndless
  some : c.remaining ≠ 0

/-- The channel when its data are done. -/
def spent (v : Variant) (c : Channel) : Channel := (step v)^[c.remaining.toNat] c

theorem spent_spec {v : Variant} {c : Channel} (hc : Launched v c) :
    (spent v c).ctrl = c.ctrl ∧ (spent v c).mode = c.mode ∧ (spent v c).remaining = 0 ∧
      (spent v c).busy = true ∧ Idle (spent v c).free := by
  obtain ⟨hctrl, hmode, hbusy, hwedged, hleft⟩ :=
    step_iterate (v := v) c.remaining.toNat c (Nat.le_refl _)
  refine ⟨hctrl, hmode, BitVec.eq_of_toNat_eq (hleft.trans (Nat.sub_self _)), hbusy.trans hc.busy,
    congrArg Channel.free (step_iterate_erase hc.erased _), rfl, hwedged.trans hc.alive⟩

/-- The data of an instruction as turns of the machine, up to the completion of
    its channel. -/
theorem leads_data (hv : F.Valid B.v i) {c : Channel} (hc : Launched B.v c)
    (hruns : Runs B F i c.remaining.toNat c S) :
    (S.executing F i c).Leads B ((transfer B F i c.remaining.toNat c S).map fun S =>
      ⟨(S.dma F i (S.rest F) (spent B.v c)).complete B.v i, S.mem, S.dev, S.cycle⟩) := by
  have hbeats := fun n hn hr => executing_beats hv n S c hc.erased hc.once.2 hc.some hn hr
  have hpos : 0 < c.remaining.toNat := by
    rw [Nat.pos_iff_ne_zero]
    intro h
    exact hc.some (BitVec.eq_of_toNat_eq h)
  obtain ⟨-, -, hdone, hbusy, -⟩ := spent_spec hc
  have hlast : ((transfer B F i c.remaining.toNat c S).map fun S =>
        ⟨(S.dma F i (S.rest F) (spent B.v c)).complete B.v i, S.mem, S.dev, S.cycle⟩) =
      iter (Core.beat B i) c.remaining.toNat (S.executing F i c) := by
    rw [hbeats _ (Nat.le_refl _) hruns]
    refine congrArg (Except.map · (transfer B F i c.remaining.toNat c S)) (funext fun S => ?_)
    unfold Dma.conclude
    rw [dma_run]
    exact congrArg (Core.mk · S.mem S.dev S.cycle) (if_pos ⟨hdone, hbusy⟩).symm
  rw [hlast]
  apply Core.Leads.beats hpos
  intro j hj c' hc'
  obtain ⟨hctrl, -, hbusy, hwedged, hleft⟩ := step_iterate (v := B.v) j c (Nat.le_of_lt hj)
  have hmore : ((step B.v)^[j] c).remaining ≠ 0 := by
    intro h
    rw [h] at hleft
    simp at hleft
    omega
  rw [hbeats j (Nat.le_of_lt hj) fun k hk => hruns k (Nat.lt_trans hk hj)] at hc'
  cases htransfer : transfer B F i j c S with
  | error f => rw [htransfer] at hc'; cases hc'
  | ok S' =>
    obtain ⟨hS', -⟩ := hruns j hj S' htransfer
    rw [htransfer] at hc'
    simp only [Except.map] at hc'
    rw [S'.dma_conclude_of_left hmore] at hc'
    cases hc'
    refine ⟨S'.executing_sole hv hS' ?_ ?_ (hbusy.trans hc.busy) (hwedged.trans hc.alive), ?_⟩
    · unfold Channel.enabled
      rw [hctrl]
      exact hc.enabled
    · unfold Channel.treq
      rw [hctrl]
      exact hc.unpaced
    · rw [dma_run]
      exact hleft

end State

end Sequential

end DmaCpu.Emu
