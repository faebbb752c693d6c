-- SUMMARY: The nine channels of the compact machine run the record interpreter.
import DmaCpu.Emu.Compact
import DmaCpu.Emu.Setup

/-!
# The compact machine refines the interpreter

As for the classic machine, with two differences. Fetch comes back to the window
by its ring, and it is the bank that starts it again, or cleanup for a bank that
returns to plain. And the running channel changes from record to record, so the
registers of every bank are part of the state between records.
-/
namespace DmaCpu.Emu

namespace Compact

variable {δ : Type} {B : Board δ} {lit : Word} {addr : Word}

open Sequential (State Stop Front)
open Sequential.State

/-! ## The channels -/

theorem fetchCtrl_copies (v : Variant) : Copies v (fetchCtrl v) fetch := by
  constructor <;> cases v <;> decide

theorem front_valid (v : Variant) (lit : Word) {ch : Nat} (h : ch < numBanks) :
    (front v lit).Valid v ch where
  fetch_lt := (by cases v <;> decide : fetch < v.nChannels)
  lt := Nat.lt_of_lt_of_le h (by cases v <;> decide)
  aux_lt := (by cases v <;> decide : cleanup < v.nChannels)
  fetch_ne := (Nat.ne_of_lt h).symm
  ne_aux := Nat.ne_of_lt (Nat.lt_of_lt_of_le h (by decide : numBanks ≤ cleanup))
  fetch_aux := (by decide : fetch ≠ cleanup)
  copies := fetchCtrl_copies v
  count := (by cases v <;> decide : v.transCount 2 = 2)
  mode := (by cases v <;> decide : v.transMode 2 = 0)
  words := (by decide : (2 : Word) ≠ 0)
  home := (by decide : window plain ≠ 0)

/-- What the CTRL words of the banks have in common. -/
structure Bank (v : Variant) (ch : Nat) (c : Channel) : Prop where
  enabled : c.enabled = true
  unpaced : c.treq v = treqPermanent
  quiet : c.irqQuiet v = true
  chain : c.chainTo v = if autoReturn ch then cleanup else fetch

theorem bankCtrl_bank (v : Variant) {ch : Nat} (h : ch < numBanks) :
    Bank v ch { ctrl := bankCtrl v ch } := by
  constructor <;> revert h <;> revert ch <;> cases v <;> decide

theorem Bank.of_ctrl {v : Variant} {ch : Nat} {c c' : Channel} (h : Bank v ch c)
    (hctrl : c'.ctrl = c.ctrl) : Bank v ch c' := by
  obtain ⟨henabled, hunpaced, hquiet, hchain⟩ := h
  unfold Channel.enabled at henabled
  unfold Channel.treq at hunpaced
  unfold Channel.irqQuiet at hquiet
  unfold Channel.chainTo at hchain
  simp only [← hctrl] at henabled hunpaced hquiet hchain
  exact ⟨henabled, hunpaced, hquiet, hchain⟩

theorem bankOf_window {ch : Nat} (h : ch < numBanks) : bankOf (window ch) = ch := by
  revert ch
  decide

/-- Fetch goes straight through the program and round the window. -/
theorem fetchCtrl_strides (v : Variant) :
    ({ ctrl := fetchCtrl v } : Channel).strideR v = 4 ∧
      ({ ctrl := fetchCtrl v } : Channel).strideW v = 4 ∧
      ({ ctrl := fetchCtrl v } : Channel).ringMaskR v = 0 ∧
      ({ ctrl := fetchCtrl v } : Channel).ringMaskW v = 7 := by
  cases v <;> decide

theorem window_ring {ch : Nat} (h : ch < numBanks) :
    Dma.advanceAddr (chanRegAddr ch offAl2ReadAddr) 4 7 = chanRegAddr ch offAl2WriteAddrTrig ∧
      Dma.advanceAddr (chanRegAddr ch offAl2WriteAddrTrig) 4 7 = chanRegAddr ch offAl2ReadAddr := by
  revert ch
  decide

theorem front_step (v : Variant) {pc write write' left : Word}
    (h : Dma.advanceAddr write 4 7 = write') :
    Sequential.step v ((front v lit).chan pc write left true) =
      (front v lit).chan (pc + 4) write' (left - 1) true :=
  step_chan (fetchCtrl_strides v) h

/-! ## Between records -/

/-- What holds between records. -/
structure Ready (B : Board δ) (lit : Word) (S : State δ) : Prop where
  erased : S.regs.erase = S.regs
  idle : ∀ j, j ≠ fetch → (S.regs.ch j).busy = false
  ctrl : ∀ ch < numBanks, (S.regs.ch ch).ctrl = bankCtrl B.v ch
  alive : ∀ ch < numBanks, (S.regs.ch ch).wedged = false
  rewinds : S.Rewinds B (front B.v lit)

theorem Ready.calm {S : State δ} (hS : Ready B lit S) (ch : Nat) : S.Calm (front B.v lit) ch :=
  ⟨hS.erased, fun j hf _ => hS.idle j hf⟩

theorem Ready.bank_idle {S : State δ} (hS : Ready B lit S) {ch : Nat} (h : ch < numBanks) :
    Idle (S.regs.ch ch) :=
  ⟨congrArg (fun d : Dma => d.ch ch) hS.erased, hS.idle ch (Nat.ne_of_lt h), hS.alive ch h⟩

theorem Ready.bank {S : State δ} (hS : Ready B lit S) {ch : Nat} (h : ch < numBanks) :
    Bank B.v ch (S.regs.ch ch) :=
  (bankCtrl_bank B.v h).of_ctrl (hS.ctrl ch h)

theorem Ready.fetchWord {S S' : State δ} {x : Word} (hS : Ready B lit S)
    (h : S.fetchWord B = .ok (x, S')) : Ready B lit S' := by
  have hrewinds := hS.rewinds.fetchWord h
  obtain ⟨dev, rfl⟩ := fetchWord_ok h
  exact ⟨hS.erased, hS.idle, hS.ctrl, hS.alive, hrewinds⟩

/-- A new channel in a register block that is ready. -/
theorem Ready.setCh {S S' : State δ} (hS : Ready B lit S) {j : Nat} {c : Channel}
    (hregs : S'.regs = S.regs.setCh j c) (hc : c.erase = c) (hbusy : c.busy = false)
    (hctrl : c.ctrl = (S.regs.ch j).ctrl) (hwedged : c.wedged = (S.regs.ch j).wedged)
    (hrewinds : S'.Rewinds B (front B.v lit)) : Ready B lit S' := by
  have hfield : ∀ {α : Type} (g : Channel → α), g c = g (S.regs.ch j) → ∀ k,
      g (S'.regs.ch k) = g (S.regs.ch k) := by
    intro α g hg k
    rw [hregs]
    by_cases hk : k = j
    · rw [hk, Dma.setCh_same]
      exact hg
    · rw [Dma.setCh_other _ hk]
  refine ⟨?_, ?_, ?_, ?_, hrewinds⟩
  · rw [hregs, Dma.erase_setCh, hS.erased, hc]
  · intro k hk
    rw [hregs]
    by_cases hkj : k = j
    · rw [hkj, Dma.setCh_same]
      exact hbusy
    · rw [Dma.setCh_other _ hkj]
      exact hS.idle k hk
  · intro ch hch
    exact (hfield Channel.ctrl hctrl ch).trans (hS.ctrl ch hch)
  · intro ch hch
    exact (hfield Channel.wedged hwedged ch).trans (hS.alive ch hch)

theorem Ready.rewound {S : State δ} (hS : Ready B lit S) :
    Ready B lit (S.rewound (front B.v lit)) := by
  have hch : (S.regs.ch cleanup).erase = S.regs.ch cleanup :=
    congrArg (fun d : Dma => d.ch cleanup) hS.erased
  exact hS.setCh rfl (congrArg (fun c : Channel => { c with remaining := 0, mode := 0 }) hch)
    (hS.idle cleanup (by decide)) rfl rfl hS.rewinds.rewound

theorem Writable.reaches {ch : Nat} {w : Width} (h : Writable B lit ch addr w) :
    Sequential.State.Reaches B (front B.v lit) ch addr := by
  intro hdma ht
  have hmem := h.dma hdma
  rw [ht] at hmem
  simp at hmem

theorem Writable.count {ch j : Nat} {w : Width} (h : Writable B lit ch addr w)
    (hdma : inDMA addr = true) (ht : (front B.v lit).target B.v ch (aliasOp addr).1 = .count j) :
    j < numBanks := by
  have hmem := h.dma hdma
  rw [ht] at hmem
  simp only [List.cons_append, List.nil_append, List.mem_cons, List.mem_map, List.mem_range,
    reduceCtorEq, false_or, Sequential.Target.count.injEq] at hmem
  obtain ⟨k, hk, rfl⟩ := hmem
  exact hk

theorem Writable.spares {ch : Nat} {w : Width} (h : Writable B lit ch addr w) :
    Spares B (front B.v lit) ch addr w where
  dma hdma ht := absurd (h.count hdma ht) (by decide : ¬ cleanup < numBanks)
  scratch := h.literal

theorem Ready.datum {S S' : State δ} (hS : Ready B lit S) {ch : Nat} {c : Channel}
    (hw : ∀ w, ctrlDataSize c.ctrl = some w → Writable B lit ch c.writeAddr w)
    (h : S.datum B (front B.v lit) ch c = .ok S') : Ready B lit S' := by
  have hrewinds := hS.rewinds.datum (fun w hsize => (hw w hsize).spares) h
  obtain ⟨w, dev, x, acc, S₁, hsize, hput, rfl⟩ := datum_ok h
  rcases put_regs hput with hregs | ⟨j, y, hdma, ht, hregs⟩
  · exact ⟨hregs ▸ hS.erased, fun j hj => hregs ▸ hS.idle j hj, fun j hj => hregs ▸ hS.ctrl j hj,
      fun j hj => hregs ▸ hS.alive j hj, hrewinds⟩
  · -- the count of another bank
    have hch : (S.regs.ch j).erase = S.regs.ch j := congrArg (fun d : Dma => d.ch j) hS.erased
    have hj : j ≠ fetch := Nat.ne_of_lt ((hw w hsize).count hdma ht)
    exact hS.setCh hregs (congrArg (fun c : Channel => { c with reload := y }) hch) (hS.idle j hj)
      rfl rfl hrewinds

/-! ## Fetch -/

variable (S : State δ) {ch : Nat} {e : Channel}

/-- The machine when the record is in the bank's registers and its trigger has fired. -/
def started (B : Board δ) (lit : Word) (ch : Nat) (e : Channel) (r : Record) (S : State δ) : Core δ :=
  Sequential.State.started B (front B.v lit) ch offAl2WriteAddrTrig .writeAddr
    { e with readAddr := r.read } r.write S

theorem fetchRecord_ok {S S' : State δ} {r : Record} (h : fetchRecord B S = .ok (r, S')) :
    ∃ S₀, S.fetchWord B = .ok (r.read, S₀) ∧ S₀.fetchWord B = .ok (r.write, S') := by
  obtain ⟨⟨_, S₀⟩, h₀, h⟩ := Fallible.bind_eq_ok.mp h
  obtain ⟨⟨_, S₁⟩, h₁, h⟩ := Fallible.bind_eq_ok.mp h
  cases h
  exact ⟨S₀, h₀, h₁⟩

/-- Reading a record changes neither registers nor window. -/
theorem fetchRecord_same {S S' : State δ} {r : Record} (h : fetchRecord B S = .ok (r, S')) :
    S'.regs = S.regs ∧ S'.window = S.window := by
  obtain ⟨S₀, h₀, h₁⟩ := fetchRecord_ok h
  obtain ⟨dev₀, rfl⟩ := fetchWord_ok h₀
  obtain ⟨dev₁, rfl⟩ := fetchWord_ok h₁
  exact ⟨rfl, rfl⟩

theorem Ready.fetchRecord {S S' : State δ} {r : Record} (hS : Ready B lit S)
    (h : fetchRecord B S = .ok (r, S')) : Ready B lit S' := by
  obtain ⟨S₀, h₀, h₁⟩ := fetchRecord_ok h
  exact (hS.fetchWord h₀).fetchWord h₁

/-- The two words of a record. -/
theorem leads_fetch (hch : ch < numBanks) (hS : Ready B lit S) (he : Idle e)
    (hpc : ∀ j < 2, inDMA (S.pc + BitVec.ofNat 32 (4 * j)) = false) :
    (S.fetching (front B.v lit) ch offAl2ReadAddr 2 e).Leads B
      ((fetchRecord B S).map fun x => started B lit ch e x.1 x.2) := by
  unfold fetchRecord
  simp only [bind, pure, Except.pure, Fallible.map_bind]
  have hF := front_valid B.v lit hch
  have hpc₀ : inDMA S.pc = false := by simpa using hpc 0 (by decide)
  apply Core.Leads.andThen (S.leads_store hF (hS.calm ch) he hpc₀ (r := offAl2ReadAddr) (2 : Word)
    .readAddr (by decide) (by decide) (by decide) (by decide) (by decide) (by decide) (by decide)
    (front_step B.v (window_ring hch).1))
  intro x₀ h₀
  have hpc₁ : inDMA x₀.2.pc = false := by
    rw [fetchWord_pc h₀]
    exact hpc 1 (by decide)
  exact x₀.2.leads_trigger hF ((hS.fetchWord h₀).calm ch) (he.writeChan B.v .readAddr x₀.1) hpc₁
    (r := offAl2WriteAddrTrig) (by decide) (by decide) (by decide) (by decide)

/-! ## What the trigger of a record does -/

/-- The bank when the record is in its registers. -/
def held (e : Channel) (r : Record) : Channel := { e with readAddr := r.read, writeAddr := r.write }

theorem held_idle (he : Idle e) (r : Record) : Idle (held e r) :=
  (he.writeChan .rp2040 .readAddr r.read).writeChan .rp2040 .writeAddr r.write

/-- Fetch is back at the window. -/
theorem lands (hch : ch < numBanks) (hwin : S.window = window ch) :
    S.Lands B (front B.v lit) ch offAl2WriteAddrTrig := by
  unfold Lands
  rw [front_step B.v (window_ring hch).2, BitVec.sub_add_cancel, hwin]
  rfl

/-! ## Records -/

/-- The machine between records, with fetch about to start. -/
def standing (B : Board δ) (lit : Word) (S : State δ) : Core δ :=
  S.core (front B.v lit) plain ((front B.v lit).chan S.pc S.window 2 true) (S.regs.ch plain)

theorem standing_of_core (hch : ch < numBanks) :
    S.core (front B.v lit) ch ((front B.v lit).chan S.pc S.window 2 true) e =
      standing B lit { S with regs := S.regs.setCh ch e } := by
  unfold standing core
  rw [S.dma_rebase (front_valid B.v lit hch).fetch_ne
    (front_valid B.v lit (by decide : plain < numBanks)).fetch_ne]

theorem standing_eq (hch : ch < numBanks) : standing B lit S =
    S.core (front B.v lit) ch ((front B.v lit).chan S.pc S.window 2 true) (S.regs.ch ch) := by
  rw [standing_of_core S hch, Dma.setCh_self]

theorem chan_some {v : Variant} {bank : Channel} (r : Record) (h : v.transCount bank.reload ≠ 0) :
    bank.zeroLength v = false ∧ r.chan v bank = (held bank r).launch v := by
  have hlen : bank.zeroLength v = false := by
    unfold Channel.zeroLength
    rw [decide_eq_false h]
    rfl
  have hheld : (held bank r).zeroLength v = false := hlen
  refine ⟨hlen, if_neg ?_⟩
  rw [Bool.not_eq_true]
  exact hheld

theorem chan_zero {v : Variant} {bank : Channel} (r : Record) (h : v.transCount bank.reload = 0)
    (hmode : v.transMode bank.reload ≠ transModeEndless) :
    bank.zeroLength v = true ∧ r.chan v bank = (held bank r).latch v := by
  have hlen : bank.zeroLength v = true := by
    unfold Channel.zeroLength
    rw [decide_eq_true h, decide_eq_true hmode]
    rfl
  exact ⟨hlen, if_pos hlen⟩

theorem chan_launched (he : Idle e) (hbank : Bank B.v ch e) {r : Record} (hr : r.Moves B lit ch e)
    (hcount : B.v.transCount e.reload ≠ 0) : Launched B.v (r.chan B.v e) := by
  rw [(chan_some r hcount).2]
  have herased : ((held e r).launch B.v).erase = (held e r).launch B.v := by
    rw [Channel.erase_launch, (held_idle he r).erased]
  exact ⟨herased, hbank.enabled, hbank.unpaced, rfl, he.alive, hr.once, hcount⟩

theorem Ready.transfer {S S' : State δ} (hS : Ready B lit S) {bank : Channel} {r : Record}
    (hr : r.Moves B lit ch bank) {n : Nat} (hn : n ≤ (B.v.transCount bank.reload).toNat)
    (h : S.transfer B (front B.v lit) ch n (r.chan B.v bank) = .ok S') : Ready B lit S' := by
  refine transfer_invariant (fun j hj S S' hS h => ?_) hn hS h
  have hcount : B.v.transCount bank.reload ≠ 0 := by
    intro h0
    rw [h0] at hj
    exact absurd hj (Nat.not_lt_zero j)
  have hchan := (chan_some r hcount).2
  have hrem : (r.chan B.v bank).remaining = B.v.transCount bank.reload := by rw [hchan]; rfl
  have hctrl := (step_iterate (v := B.v) j (r.chan B.v bank)
    (hrem ▸ Nat.le_of_lt hj)).1
  refine hS.datum (fun w hsize => hr.writes j hj w ?_) h
  rw [hctrl, hchan] at hsize
  exact hsize

/-- The data of a record: each finds the machine calm, and writes where it may. -/
theorem Ready.runs {S : State δ} (hS : Ready B lit S) {bank : Channel} {r : Record}
    (hr : r.Moves B lit ch bank) (hctrl : (r.chan B.v bank).ctrl = bank.ctrl) :
    S.Runs B (front B.v lit) ch (B.v.transCount bank.reload).toNat (r.chan B.v bank) := by
  intro j hj S' h
  refine ⟨(hS.transfer hr (Nat.le_of_lt hj) h).calm ch, fun w hsize => ?_⟩
  exact (hr.writes j hj w (hctrl ▸ hsize)).reaches

/-- The bank when the record is done. -/
def done (v : Variant) (e : Channel) (r : Record) : Channel :=
  (Sequential.step v)^[(v.transCount e.reload).toNat] (r.chan v e)

theorem done_spec (he : Idle e) (hbank : Bank B.v ch e) {r : Record} (hr : r.Moves B lit ch e) :
    (done B.v e r).ctrl = e.ctrl ∧ (done B.v e r).mode = B.v.transMode e.reload ∧
      Idle (done B.v e r).free := by
  unfold done
  by_cases hcount : B.v.transCount e.reload = 0
  · obtain ⟨-, hchan⟩ := chan_zero r hcount hr.once.2
    obtain ⟨herased, -, halive⟩ := held_idle he r
    rw [hcount, hchan]
    refine ⟨rfl, rfl, ?_, rfl, halive⟩
    rw [Channel.erase_free]
    exact congrArg Channel.free ((Channel.erase_latch ..).trans (congrArg (Channel.latch B.v) herased))
  · have hc := chan_launched he hbank hr hcount
    have hchan := (chan_some r hcount).2
    have hrem : (r.chan B.v e).remaining = B.v.transCount e.reload := by rw [hchan]; rfl
    obtain ⟨hctrl, hmode, -, -, hidle⟩ := spent_spec hc
    unfold spent at hctrl hmode hidle
    rw [hrem] at hctrl hmode hidle
    refine ⟨?_, ?_, hidle⟩
    · rw [hctrl, hchan]; rfl
    · rw [hmode, hchan]; rfl

/-- Cleanup's turn, after which fetch is at the plain window. -/
theorem leads_return (hch : ch < numBanks) (hS : Ready B lit S) (he : Idle e) :
    (S.rewindTurn B (front B.v lit) ch e).Leads B (.ok (standing B lit
      (({ S with regs := S.regs.setCh ch e } : State δ).rewound (front B.v lit)))) := by
  have hF := front_valid B.v lit hch
  have hstate : ({ S.rewound (front B.v lit) with
      regs := (S.rewound (front B.v lit)).regs.setCh ch e } : State δ) =
      ({ S with regs := S.regs.setCh ch e } : State δ).rewound (front B.v lit) := by
    unfold rewound
    rw [Dma.setCh_other _ hF.ne_aux.symm, Dma.setCh_comm _ hF.ne_aux.symm]
  have hrewind := S.leads_rewind hF (hS.calm ch) hS.rewinds he
  rw [← hstate, ← standing_of_core (S.rewound (front B.v lit)) hch]
  exact hrewind

theorem retire_of_return (h : autoReturn ch = true) (c : Channel) : retire B lit ch c S =
    ({ S with regs := S.regs.setCh ch c.free } : State δ).rewound (front B.v lit) :=
  if_pos h

theorem retire_of_stay (h : autoReturn ch = false) (c : Channel) :
    retire B lit ch c S = { S with regs := S.regs.setCh ch c.free } :=
  if_neg (by rw [h]; decide)

/-- The end of a record: fetch runs again, started by the bank itself or by cleanup. -/
theorem leads_retire (hch : ch < numBanks) (hS : Ready B lit S) (hbank : Bank B.v ch e)
    (hmode : e.mode ≠ transModeTriggerSelf) (hidle : Idle e.free) :
    (autoReturn ch = true → (Core.mk ((S.dma (front B.v lit) ch (S.rest (front B.v lit)) e).complete
        B.v ch) S.mem S.dev S.cycle).Leads B (.ok (standing B lit (retire B lit ch e S)))) ∧
      (autoReturn ch = false → Core.mk ((S.dma (front B.v lit) ch (S.rest (front B.v lit)) e).complete
        B.v ch) S.mem S.dev S.cycle = standing B lit (retire B lit ch e S)) := by
  have hF := front_valid B.v lit hch
  have hsig : S.signalled B.v ch e = S := if_pos hbank.quiet
  have hto := hbank.chain
  refine ⟨fun hreturn => ?_, fun hreturn => ?_⟩
  · rw [hreturn] at hto
    rw [S.complete_rewind hF (hS.calm ch) hS.rewinds hto hmode, hsig, retire_of_return S hreturn]
    exact leads_return S hch hS hidle
  · rw [hreturn] at hto
    rw [S.complete_refetch hF hto hmode, hsig, retire_of_stay S hreturn]
    exact standing_of_core S hch

/-- A record that moves something, as one or more steps. -/
theorem leads_moves (hch : ch < numBanks) (hwin : S.window = window ch) (hS : Ready B lit S)
    {r : Record} (hwrite : r.write ≠ 0) (hr : r.Moves B lit ch (S.regs.ch ch)) :
    (started B lit ch (S.regs.ch ch) r S).Leads B
      ((S.transfer B (front B.v lit) ch (B.v.transCount (S.regs.ch ch).reload).toNat
        (r.chan B.v (S.regs.ch ch))).map fun S' => standing B lit
          (retire B lit ch (done B.v (S.regs.ch ch) r) S')) := by
  have he := hS.bank_idle hch
  have hbank := hS.bank hch
  generalize S.regs.ch ch = e at *
  obtain ⟨hdoneCtrl, hdoneMode, hidle⟩ := done_spec he hbank hr
  by_cases hcount : B.v.transCount e.reload = 0
  · -- nothing to move, on a bank that returns
    have hreturn : autoReturn ch = true := by
      by_contra h
      exact hr.nonzero (by simpa using h) hcount
    obtain ⟨hlen, hchan⟩ := chan_zero r hcount hr.once.2
    have hdone : done B.v e r = (held e r).latch B.v := by
      unfold done
      rw [hcount, hchan]
      rfl
    rw [hdone] at hidle ⊢
    have hchain : (held e r).chainTo B.v = cleanup := hbank.chain.trans (if_pos hreturn)
    rw [started, S.started_empty (front_valid B.v lit hch) (by decide) (lands S hch hwin) (hS.calm ch)
      hS.rewinds hwrite (held e r) rfl hbank.enabled he.free hlen hchain hr.once.1, hcount,
      show S.signalled B.v ch ((held e r).latch B.v) = S from if_pos hbank.quiet]
    simp only [retire_of_return _ hreturn]
    exact leads_return S hch hS hidle
  · obtain ⟨hlen, hchan⟩ := chan_some r hcount
    have hrem : (r.chan B.v e).remaining = B.v.transCount e.reload := by rw [hchan]; rfl
    have hctrl : (r.chan B.v e).ctrl = e.ctrl := by rw [hchan]; rfl
    have hdata := S.leads_data (front_valid B.v lit hch) (chan_launched he hbank hr hcount)
      (hrem.symm ▸ hS.runs hr hctrl)
    have hspent : spent B.v (r.chan B.v e) = done B.v e r := by
      unfold spent done
      rw [hrem]
    rw [hrem, hspent] at hdata
    have harmed : Dma.Armed B.v (held e r) := ⟨hbank.enabled, he.free, hlen⟩
    rw [started, S.started_armed (front_valid B.v lit hch) (by decide) (lands S hch hwin) hwrite
      (held e r) rfl harmed, ← hchan]
    have hdoneBank : Bank B.v ch (done B.v e r) := hbank.of_ctrl hdoneCtrl
    have hself : (done B.v e r).mode ≠ transModeTriggerSelf := hdoneMode ▸ hr.once.1
    -- the data, and then the end of the record
    cases htransfer : S.transfer B (front B.v lit) ch (B.v.transCount e.reload).toNat
        (r.chan B.v e) with
    | error f =>
      rw [htransfer] at hdata
      exact hdata
    | ok S' =>
      rw [htransfer] at hdata
      have hS' := hS.transfer hr (Nat.le_refl _) htransfer
      obtain ⟨hreturns, hstays⟩ := leads_retire S' hch hS' hdoneBank hself hidle
      cases hreturn : autoReturn ch with
      | true => exact hdata.trans (hreturns hreturn)
      | false => exact (congrArg (fun c => Core.Leads B _ (.ok c)) (hstays hreturn)).mp hdata

theorem Ready.retire {S : State δ} (hS : Ready B lit S) (hch : ch < numBanks) {c : Channel}
    (hidle : Idle c.free) (hctrl : c.ctrl = bankCtrl B.v ch) : Ready B lit (retire B lit ch c S) := by
  have hstay : Ready B lit { S with regs := S.regs.setCh ch c.free } := by
    have hne : cleanup ≠ ch := (front_valid B.v lit hch).ne_aux.symm
    refine hS.setCh (j := ch) (c := c.free) rfl hidle.erased hidle.free ?_ ?_ ?_
    · exact hctrl.trans (hS.ctrl ch hch).symm
    · exact hidle.alive.trans (hS.alive ch hch).symm
    · exact hS.rewinds.same (Dma.setCh_other _ hne _) rfl rfl
  cases hreturn : autoReturn ch with
  | true =>
    rw [retire_of_return S hreturn]
    exact hstay.rewound
  | false =>
    rw [retire_of_stay S hreturn]
    exact hstay

/-! ## Runs -/

/-- The machine stands where the interpreter does. -/
def At (B : Board δ) (lit : Word) (m : Machine δ) (S : State δ) : Prop :=
  Ready B lit S ∧ m.core = standing B lit S

/-- One record. -/
theorem exec_refines {m : Machine δ} (hat : At B lit m S) (hgood : Good B lit S) :
    ∃ k, 0 < k ∧
      Sequential.Outcome (At B lit) fetch (iter (Machine.next B) k m) (exec B lit S) := by
  obtain ⟨hS, hcore⟩ := hat
  obtain ⟨ch, hch, hwin⟩ := hgood.bank
  have hF := front_valid B.v lit hch
  have hbank : bankOf S.window = ch := by rw [hwin, bankOf_window hch]
  have hfetch := leads_fetch S hch hS (hS.bank_idle hch) hgood.pc
  have hstart : m.core = S.fetching (front B.v lit) ch offAl2ReadAddr 2 (S.regs.ch ch) := by
    rw [hcore, standing_eq S hch, hwin]
    rfl
  unfold exec
  simp only [hbank]
  cases hrecord : fetchRecord B S with
  | error f =>
    rw [hrecord] at hfetch
    obtain ⟨k, hk, hrun⟩ := hfetch m hstart
    exact ⟨k, hk, eq_error_of_map hrun⟩
  | ok x =>
    obtain ⟨r, S₁⟩ := x
    rw [hrecord] at hfetch
    have hS₁ := hS.fetchRecord hrecord
    obtain ⟨hregs, hwindow⟩ := fetchRecord_same hrecord
    have hwin₁ : S₁.window = window ch := hwindow.trans hwin
    simp only
    by_cases hwrite : r.write = 0
    · rw [if_pos hwrite]
      obtain ⟨regs, hcalm, hnull⟩ := S₁.started_null (e := { S.regs.ch ch with readAddr := r.read })
        (g := .writeAddr) hF (by decide : offAl2WriteAddrTrig < chanStride) (lands S₁ hch hwin₁)
        (hS₁.calm ch) hwrite
      obtain ⟨k, hk, hrun⟩ := hfetch m hstart
      obtain ⟨m', hm', hcore'⟩ := Fallible.map_eq_ok.mp hrun
      have hhalt := hcore'.trans hnull
      obtain ⟨hmem, hdev, hcycle, hsc, hsd, hpc⟩ := Sequential.agrees_of_core hF hhalt rfl
      exact ⟨k, hk, m', hm', ⟨hmem, hdev, hcycle, hsc, hsd, hpc⟩,
        Sequential.idle_of_core hF hcalm rfl (held_idle (hS.bank_idle hch) r).free hhalt⟩
    · rw [if_neg hwrite]
      have hr := (hgood.record r S₁ hrecord).resolve_left hwrite
      rw [hbank, ← hregs] at hr
      rw [← hregs] at hfetch
      have hmoves := leads_moves S₁ hch hwin₁ hS₁ hwrite hr
      obtain ⟨k, hk, hrun⟩ := hfetch.trans hmoves m (hregs ▸ hstart)
      refine ⟨k, hk, ?_⟩
      cases htransfer : S₁.transfer B (front B.v lit) ch
          (B.v.transCount (S₁.regs.ch ch).reload).toNat (r.chan B.v (S₁.regs.ch ch)) with
      | error f =>
        rw [htransfer] at hrun
        exact eq_error_of_map hrun
      | ok S₂ =>
        rw [htransfer] at hrun
        obtain ⟨m', hm', hcore'⟩ := Fallible.map_eq_ok.mp hrun
        have hS₂ := hS₁.transfer hr (Nat.le_refl _) htransfer
        obtain ⟨hdoneCtrl, -, hidle⟩ := done_spec (hS₁.bank_idle hch) (hS₁.bank hch) hr
        exact ⟨m', hm', hS₂.retire hch hidle (hdoneCtrl.trans (hS₁.ctrl ch hch)), hcore'⟩

/-! ## Setup -/

/-- The init writes, register by register. -/
def initRegs (v : Variant) (lit : Word) (ch : Nat) : List (Nat × Word) :=
  if ch = cleanup then (front v lit).auxWrites v
  else [(offAl1Ctrl, bankCtrl v ch), (offAl2TransCount, 1)]

theorem plain_initRegs (v : Variant) (lit : Word) (ch : Nat) :
    ((initRegs v lit ch).map Prod.fst).all plainReg = true := by
  unfold initRegs
  split
  · exact (front v lit).plain_auxWrites v
  · simp only [List.map_cons, List.map_nil]
    decide

/-- What the init writes leave in the channels. -/
theorem core_of_init {m m₁ : Machine δ} (h : m.pokes B (initWrites B.v lit) = .ok m₁) :
    m₁.mem = m.mem ∧ m₁.core.dma.erase = m₁.core.dma ∧
      (∀ ch < numBanks, m₁.core.dma.ch ch =
        { m.core.dma.ch ch with ctrl := bankCtrl B.v ch, reload := 1 }) ∧
      m₁.core.dma.ch cleanup = (front B.v lit).aimed B.v (m.core.dma.ch cleanup) ∧
      ∀ j, numBanks ≤ j → j ≠ cleanup → m₁.core.dma.ch j = m.core.dma.ch j := by
  have hcore := Machine.pokes_core B h
  obtain ⟨d', hpokes, herased, hall⟩ := Core.pokes_chans (B := B) m.mem m.dev m.cycle
    (initRegs B.v lit) (plain_initRegs B.v lit) (List.range numBanks ++ [cleanup]) m.core.dma
    m.dma.erase_erase (by decide) (by cases B.v <;> decide)
  have hm₁ : m₁.core = ⟨d', m.mem, m.dev, m.cycle⟩ := Except.ok.inj (hcore.symm.trans hpokes)
  have hdma : m₁.core.dma = d' := congrArg Core.dma hm₁
  rw [hdma]
  refine ⟨congrArg Core.mem hm₁, herased, ?_, ?_, ?_⟩
  · intro ch hch
    have hne : ch ≠ cleanup := (front_valid B.v lit hch).ne_aux
    rw [hall, if_pos (List.mem_append_left _ (List.mem_range.2 hch))]
    unfold initRegs
    rw [if_neg hne]
    have hclean : bankCtrl B.v ch &&& ~~~B.v.ctrlBusy = bankCtrl B.v ch := by
      revert ch
      cases B.v <;> decide
    exact congrArg (fun ctrl => { m.core.dma.ch ch with ctrl := ctrl, reload := 1 }) hclean
  · rw [hall]
    exact (front B.v lit).stores_auxWrites B.v (by decide : cleanup < 16) _
  · intro j hj hne
    rw [hall, if_neg]
    simp only [List.mem_append, List.mem_range, List.mem_singleton, not_or]
    exact ⟨Nat.not_lt.2 hj, hne⟩

/-- Init writes and `SetupFetchExec` leave the machine where the interpreter begins. -/
theorem setup_at {m m₁ m₀ : Machine δ} {entry : Word}
    (hinit : m.pokes B (initWrites B.v lit) = .ok m₁) (hsetup : setupFetchExec B m₁ entry = .ok m₀)
    (hidle : ∀ j, (m.dma.ch j).busy = false ∧ (m.dma.ch j).wedged = false)
    (hin : m.mem.inSRAM lit .word = true) (hal : lit.toNat % 4 = 0)
    (hload : m.mem.sram.load (lit.toNat - sramBase) .word = window plain) :
    At B lit m₀ (boot entry m₀) := by
  obtain ⟨hmem₁, herased₁, hbanks, hcleanup, hother⟩ := core_of_init hinit
  have hF := front_valid B.v lit (by decide : plain < numBanks)
  have hfetch₁ := hother fetch (by decide) (by decide)
  have hpokes : m₁.pokes B (fetchWrites B.v entry) = .ok m₀ := by
    unfold setupFetchExec at hsetup
    split at hsetup
    · cases hsetup
    · exact hsetup
  have hcore := Machine.pokes_core B hpokes
  have hset := Core.pokes_fetch hF m₁.mem m₁.dev m₁.cycle herased₁
    (by rw [show (front B.v lit).fetch = fetch from rfl, hfetch₁]; exact (hidle fetch).1)
    (by rw [show (front B.v lit).fetch = fetch from rfl, hfetch₁]; exact (hidle fetch).2) entry
  have hm₀ : m₀.core = _ := Except.ok.inj (hcore.symm.trans hset)
  have hdma := congrArg Core.dma hm₀
  have hmem : m₀.mem = m.mem := (congrArg Core.mem hm₀).trans hmem₁
  have hfetch : m₀.core.dma.ch fetch = (front B.v lit).chan entry (window plain) 2 true := by
    rw [hdma]
    exact Dma.setCh_same ..
  have hch : ∀ j, j ≠ fetch → m₀.core.dma.ch j = m₁.core.dma.ch j := by
    intro j hj
    rw [hdma]
    exact Dma.setCh_other _ hj _
  refine ⟨⟨rfl, ?_, ?_, ?_, ?_⟩, ?_⟩
  · intro j hj
    change (m₀.core.dma.ch j).busy = false
    rw [hch j hj]
    by_cases hbank : j < numBanks
    · rw [hbanks j hbank]
      exact (hidle j).1
    by_cases hjc : j = cleanup
    · rw [hjc, hcleanup]
      exact (hidle cleanup).1
    · rw [hother j (Nat.le_of_not_lt hbank) hjc]
      exact (hidle j).1
  · intro ch hbank
    change (m₀.core.dma.ch ch).ctrl = _
    rw [hch ch (Nat.ne_of_lt hbank), hbanks ch hbank]
  · intro ch hbank
    change (m₀.core.dma.ch ch).wedged = _
    rw [hch ch (Nat.ne_of_lt hbank), hbanks ch hbank]
    exact (hidle ch).2
  · have haux : m₀.core.dma.ch cleanup = (front B.v lit).aimed B.v (m.core.dma.ch cleanup) := by
      rw [hch cleanup (by decide), hcleanup]
    have hin₀ : m₀.mem.inSRAM lit .word = true := by rw [hmem]; exact hin
    have hload₀ : m₀.mem.sram.load (lit.toNat - sramBase) .word = window plain := by
      rw [hmem]; exact hload
    exact rewinds_of_aimed (S := boot entry m₀) haux (hidle cleanup).2 hin₀ hal hload₀
  · have hwhole : (boot entry m₀).dma (front B.v lit) plain
        ((front B.v lit).chan entry (window plain) 2 true) (m₀.core.dma.ch plain) = m₀.core.dma := by
      rw [← hfetch]
      exact (boot entry m₀).dma_self (F := front B.v lit) rfl
    exact congrArg (Core.mk · m₀.mem m₀.dev m₀.cycle) hwhole.symm

end Compact

open Compact

/-- The compact machine is a sequential record processor: after the init writes
    and `SetupFetchExec` on an idle controller it passes, at increasing times,
    through the states of the interpreter, as long as every record it meets is one
    it can run. -/
theorem compact_sequential {δ : Type} {B : Board δ} {m m₁ m₀ : Machine δ} {lit entry : Word}
    (hinit : m.pokes B (initWrites B.v lit) = .ok m₁)
    (hsetup : Compact.setupFetchExec B m₁ entry = .ok m₀)
    (hidle : ∀ j, (m.dma.ch j).busy = false ∧ (m.dma.ch j).wedged = false)
    (hin : m.mem.inSRAM lit .word = true) (hal : lit.toNat % 4 = 0)
    (hload : m.mem.sram.load (lit.toNat - sramBase) .word = window plain)
    (hgood : ∀ n S, iter (exec B lit) n (boot entry m₀) = .ok S →
      Good B lit S) :
    ∃ t : Nat → Nat, t 0 = 0 ∧ ∀ n,
      Sequential.Reaches fetch (iter (Machine.next B) (t n) m₀)
        (iter (exec B lit) n (boot entry m₀)) ∧
      ((∃ S, iter (exec B lit) n (boot entry m₀) = .ok S) → t n < t (n + 1)) := by
  have hF := front_valid B.v lit (by decide : plain < numBanks)
  have hat : ∀ m S, At B lit m S → Sequential.Agrees fetch m S := by
    rintro m S ⟨-, hcore⟩
    exact Sequential.agrees_of_core hF hcore rfl
  obtain ⟨t, h₀, ht⟩ := Sequential.exists_run (fun _ S hat hS => exec_refines S hat hS)
    (Compact.setup_at hinit hsetup hidle hin hal hload) hgood
  exact ⟨t, h₀, fun n => ⟨(ht n).1.reaches hat, (ht n).2⟩⟩

namespace Compact.Demo

open Sequential (State)

/-- A program of the given records, and after it four words: the window of the
    byte bank, the plain window, 5 and 0. -/
def words (records : List Record) : List Word :=
  records.flatMap (fun r => [r.read, r.write]) ++ [window size8, window plain, 5, 0]

/-- The address of the plain window's literal. -/
def literal (records : List Record) : Word := BitVec.ofNat 32 (sramBase + 8 * records.length + 4)

/-- The machine set up on it. -/
def start (v : Variant) (records : List Record) : Except SetupError (Machine Unit) :=
  match (bareMachine (words records)).pokes (bareBoard v) (initWrites v (literal records)) with
  | .error e => .error e
  | .ok m₁ => setupFetchExec (bareBoard v) m₁ 0x20000000

theorem start_ok (v : Variant) (records : List Record)
    (h : (start v records).toOption.isSome = true) : ∃ m₁ m₀,
    (bareMachine (words records)).pokes (bareBoard v) (initWrites v (literal records)) = .ok m₁ ∧
      setupFetchExec (bareBoard v) m₁ 0x20000000 = .ok m₀ ∧ start v records = .ok m₀ := by
  unfold start at h ⊢
  cases hinit : (bareMachine (words records)).pokes (bareBoard v) (initWrites v (literal records)) with
  | error e => rw [hinit] at h; cases h
  | ok m₁ =>
    rw [hinit] at h
    simp only at h ⊢
    cases hsetup : setupFetchExec (bareBoard v) m₁ 0x20000000 with
    | error e => rw [hsetup] at h; cases h
    | ok m₀ => exact ⟨m₁, m₀, rfl, hsetup, rfl⟩

/-- A byte copied on the byte bank, and a word on plain after it. -/
def copies : List Record :=
  [⟨0x20000020, chanRegAddr fetch offAl3WriteAddr⟩, ⟨0x20000028, 0x20000080⟩,
    ⟨0x20000028, 0x20000084⟩, ⟨0, 0⟩]

end Compact.Demo

open Compact.Demo Fallible

theorem compact_sequential_copies : ∃ m₀, start .rp2350 copies = .ok m₀ ∧
    ∃ t : Nat → Nat, t 0 = 0 ∧ ∀ n,
      Sequential.Reaches fetch (iter (Machine.next (bareBoard .rp2350)) (t n) m₀)
        (iter (exec (bareBoard .rp2350) (literal copies)) n
          (boot 0x20000000 m₀)) ∧
      ((∃ S, iter (exec (bareBoard .rp2350) (literal copies)) n
          (boot 0x20000000 m₀) = .ok S) → t n < t (n + 1)) := by
  obtain ⟨m₁, m₀, hinit, hsetup, hstart⟩ := start_ok .rp2350 copies (by decide +kernel)
  -- the fourth record stops the interpreter
  have hgood : okAnd (start .rp2350 copies) (fun m₀ =>
      passes (exec (bareBoard .rp2350) (literal copies))
        (fun S => decide (Good (bareBoard .rp2350) (literal copies) S)) 4 (boot 0x20000000 m₀)) = true := by
    decide +kernel
  rw [hstart] at hgood
  exact ⟨m₀, hstart, compact_sequential hinit hsetup (fun _ => ⟨rfl, rfl⟩) (by decide +kernel)
    (by decide +kernel) (by decide +kernel) fun n S h =>
      of_decide_eq_true (of_passes (p := fun S => decide (Good _ _ S)) hgood h)⟩

/-- A program whose first record clears the word that cleanup reads. -/
def Compact.Demo.clears : List Record :=
  [⟨0x20000034, 0x2000002C⟩, ⟨0x20000028, chanRegAddr fetch offAl3WriteAddr⟩,
    ⟨0x20000030, 0x20000080⟩, ⟨0x20000030, 0x20000084⟩, ⟨0, 0⟩]

/-- Of the DMA registers the program writes only fetch's write address, through
    its plain alias and with a bank's window, and every count stays 1. After the
    byte record the interpreter is back on plain, at a record that copies a word.
    The machine has stopped there: cleanup has written a null trigger. -/
theorem compact_literal_cleared : ∃ m₀, start .rp2350 clears = .ok m₀ ∧
    (∀ r ∈ clears, inDMA r.write = true →
      r.write = chanRegAddr fetch offAl3WriteAddr ∧ r.read = 0x20000028) ∧
    (words clears).getD 10 0 = window size8 ∧
    (∃ S, iter (exec (bareBoard .rp2350) (literal clears)) 3
        (boot 0x20000000 m₀) = .ok S ∧ S.window = window plain ∧
      S.pc = 0x20000018 ∧ (S.regs.ch plain).reload = 1 ∧
      (fetchRecord (bareBoard .rp2350) S).toOption.map Prod.fst =
        some ⟨0x20000030, 0x20000084⟩) ∧
    ∃ m, iter (Machine.next (bareBoard .rp2350)) 10 m₀ = .ok m ∧
      (∀ j < 16, (m.dma.ch j).busy = false) ∧ (m.dma.ch fetch).readAddr = 0x20000018 := by
  have hrun : okAnd (start .rp2350 clears) (fun m₀ =>
      okAnd (iter (exec (bareBoard .rp2350) (literal clears)) 3 (boot 0x20000000 m₀)) (fun S =>
        decide (S.window = window plain ∧ S.pc = 0x20000018 ∧ (S.regs.ch plain).reload = 1 ∧
          (fetchRecord (bareBoard .rp2350) S).toOption.map Prod.fst =
            some ⟨0x20000030, 0x20000084⟩)) &&
      okAnd (iter (Machine.next (bareBoard .rp2350)) 10 m₀) fun m =>
        decide ((∀ j < (16 : Nat), (m.dma.ch j).busy = false) ∧ (m.dma.ch fetch).readAddr = 0x20000018)) =
      true := by
    decide +kernel
  obtain ⟨m₀, hstart, hrun⟩ := okAnd_eq_true.mp hrun
  obtain ⟨hinterp, hmachine⟩ := (Bool.and_eq_true ..).mp hrun
  obtain ⟨S, hS, hat⟩ := okAnd_eq_true.mp hinterp
  obtain ⟨m, hm, hrest⟩ := okAnd_eq_true.mp hmachine
  exact ⟨m₀, hstart, by decide +kernel, by decide +kernel, ⟨S, hS, of_decide_eq_true hat⟩,
    m, hm, of_decide_eq_true hrest⟩

end DmaCpu.Emu
