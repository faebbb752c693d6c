-- SUMMARY: Configuring the DMA block from outside: `Poke32` sequences and what they leave.
import DmaCpu.Emu.Chain

/-!
# Pokes

The loaders set channels up with writes to their registers before anything runs.
On a channel register that does not trigger such a write changes the one field
it names, so a sequence of them is a fold over the channel.
-/
namespace DmaCpu.Emu

open List

/-- Why a configuration is refused, or a poke faults. -/
inductive SetupError where
  | sameChannel
  | outOfRange
  | misaligned
  | poke (f : Fault)
deriving DecidableEq, Repr

variable {δ : Type} (B : Board δ) {v : Variant}

/-- `Poke32`, one after the other. -/
def Machine.pokes (m : Machine δ) : List (Word × Word) → Except SetupError (Machine δ)
  | [] => .ok m
  | (addr, val) :: ws =>
    match m.write B addr val .word with
    | .error f => .error (.poke f)
    | .ok m => m.pokes ws

/-- The same on the core. -/
def Core.pokes (c : Core δ) : List (Word × Word) → Except Fault (Core δ)
  | [] => .ok c
  | (addr, val) :: ws => (c.put B addr val .word).bind fun c => c.pokes ws

theorem Machine.pokes_core {m m' : Machine δ} {ws : List (Word × Word)}
    (h : m.pokes B ws = .ok m') : m.core.pokes B ws = .ok m'.core := by
  induction ws generalizing m with
  | nil => cases h; rfl
  | cons w ws ih =>
    obtain ⟨addr, val⟩ := w
    unfold pokes at h
    unfold Core.pokes
    rw [← m.write_core B addr val .word]
    cases hwrite : m.write B addr val .word with
    | error f => rw [hwrite] at h; cases h
    | ok m₁ =>
      rw [hwrite] at h
      exact ih h

theorem Core.pokes_append (c : Core δ) (ws ws' : List (Word × Word)) :
    c.pokes B (ws ++ ws') = (c.pokes B ws).bind fun c => c.pokes B ws' := by
  induction ws generalizing c with
  | nil => rfl
  | cons w ws ih =>
    rw [cons_append, pokes, pokes]
    cases c.put B w.1 w.2 .word with
    | error f => rfl
    | ok c₁ => exact ih c₁

/-- The address of a channel register that does not trigger. -/
def plainReg (r : Nat) : Bool := r < chanStride && r % 4 = 0 && !Dma.isTrig r

/-- A channel register written. -/
def Channel.store (v : Variant) (c : Channel) (r : Nat) (val : Word) : Channel :=
  match Dma.regOf r with
  | some reg => Dma.writeChan v c reg val
  | none => c

/-- The pokes of channel `i` at the given registers. -/
def chanPokes (i : Nat) (ws : List (Nat × Word)) : List (Word × Word) :=
  ws.map fun w => (chanRegAddr i w.1, w.2)

/-- The channel after them. -/
def Channel.stores (v : Variant) (c : Channel) (ws : List (Nat × Word)) : Channel :=
  ws.foldl (fun c w => c.store v w.1 w.2) c

variable {B}

theorem Channel.erase_store {c : Channel} (hc : c.erase = c) (r : Nat) (val : Word) :
    (c.store v r val).erase = c.store v r val := by
  unfold Channel.store
  split
  · rw [Dma.erase_writeChan, hc]
  · exact hc

theorem Channel.erase_stores (ws : List (Nat × Word)) :
    ∀ {c : Channel}, c.erase = c → (c.stores v ws).erase = c.stores v ws := by
  induction ws with
  | nil => exact id
  | cons w ws ih => exact fun hc => ih (erase_store hc w.1 w.2)

/-- A sequence of plain pokes of one channel. -/
theorem Core.pokes_chan {d : Dma} (mem : Mem) (dev : δ) (cycle : Nat) {i : Nat} (hd : d.erase = d)
    (hi : i < B.v.nChannels) (ws : List (Nat × Word)) : ∀ c : Channel, c.erase = c →
    (ws.map Prod.fst).all plainReg = true →
    (Core.mk (d.setCh i c) mem dev cycle).pokes B (chanPokes i ws) =
      .ok ⟨d.setCh i (c.stores B.v ws), mem, dev, cycle⟩ := by
  induction ws with
  | nil => intro c _ _; rfl
  | cons w ws ih =>
    intro c hc hplain
    simp only [map_cons, all_cons, Bool.and_eq_true, plainReg, decide_eq_true_eq,
      Bool.not_eq_true'] at hplain
    obtain ⟨⟨⟨hr, hal⟩, htrig⟩, hplain⟩ := hplain
    have hstore : (d.setCh i c).chanWrite B.v i w.1 w.2 (w.2 ≠ 0) =
        d.setCh i (c.store B.v w.1 w.2) := by
      unfold Dma.chanWrite Dma.storeReg Channel.store
      rw [htrig, Dma.setCh_same]
      cases Dma.regOf w.1 with
      | none => rfl
      | some reg => exact Dma.setCh_setCh ..
    rw [chanPokes, map_cons, pokes, Core.put_chanReg hi hr hal, hstore, Dma.erase_setCh, hd,
      Channel.erase_store hc]
    exact ih _ (Channel.erase_store hc w.1 w.2) hplain

/-- Plain pokes of several channels. -/
theorem Core.pokes_chans (mem : Mem) (dev : δ) (cycle : Nat) (ws : Nat → List (Nat × Word))
    (hplain : ∀ i, ((ws i).map Prod.fst).all plainReg = true) : ∀ (is : List Nat) (d : Dma),
    d.erase = d → is.Nodup → (∀ i ∈ is, i < B.v.nChannels) →
    ∃ d', (Core.mk d mem dev cycle).pokes B (is.flatMap fun i => chanPokes i (ws i)) =
        .ok ⟨d', mem, dev, cycle⟩ ∧ d'.erase = d' ∧
      ∀ j, d'.ch j = if j ∈ is then (d.ch j).stores B.v (ws j) else d.ch j := by
  intro is
  induction is with
  | nil => exact fun d hd _ _ => ⟨d, rfl, hd, fun j => rfl⟩
  | cons i is ih =>
    intro d hd hnodup hlt
    obtain ⟨hnotMem, hnodup⟩ := nodup_cons.1 hnodup
    have hch : (d.ch i).erase = d.ch i := congrArg (fun d : Dma => d.ch i) hd
    have hfirst := pokes_chan (B := B) mem dev cycle hd (hlt i mem_cons_self) (ws i) (d.ch i) hch
      (hplain i)
    rw [d.setCh_self] at hfirst
    have hd₁ : (d.setCh i ((d.ch i).stores B.v (ws i))).erase =
        d.setCh i ((d.ch i).stores B.v (ws i)) := by
      rw [Dma.erase_setCh, hd, Channel.erase_stores _ hch]
    obtain ⟨d', hrest, herased, hall⟩ := ih _ hd₁ hnodup fun j hj => hlt j (mem_cons_of_mem _ hj)
    refine ⟨d', ?_, herased, fun j => ?_⟩
    · rw [flatMap_cons, pokes_append, hfirst]
      exact hrest
    · rw [hall j]
      by_cases hj : j = i
      · rw [hj, if_neg hnotMem, if_pos mem_cons_self, Dma.setCh_same]
      · rw [Dma.setCh_other _ hj]
        simp [hj]

/-- The poke that starts a channel. -/
theorem Core.pokes_start {d : Dma} {mem : Mem} {dev : δ} {cycle i : Nat} (hd : d.erase = d)
    (hi : i < B.v.nChannels) {c : Channel} {ctrl : Word} (hctrl : ctrl ≠ 0)
    (harmed : Dma.Armed B.v (Dma.writeChan B.v c .ctrl ctrl)) :
    (Core.mk (d.setCh i c) mem dev cycle).pokes B [(chanRegAddr i offCtrlTrig, ctrl)] =
      .ok ⟨d.setCh i ((Dma.writeChan B.v c .ctrl ctrl).launch B.v), mem, dev, cycle⟩ := by
  have hstart : (d.setCh i c).chanWrite B.v i offCtrlTrig ctrl (ctrl ≠ 0) =
      d.setCh i ((Dma.writeChan B.v c .ctrl ctrl).launch B.v) := by
    unfold Dma.chanWrite Dma.storeReg
    rw [if_pos (by decide), show Dma.regOf offCtrlTrig = some .ctrl from by decide,
      decide_eq_true hctrl]
    simp only [Dma.setCh_same, Dma.setCh_setCh]
    rw [Dma.trigger_armed _ _ (by rw [Dma.setCh_same]; exact harmed), Dma.setCh_same, Dma.setCh_setCh]
  rw [pokes, Core.put_chanReg hi (by decide) (by decide), hstart, Dma.erase_setCh, hd,
    Channel.erase_launch, Dma.erase_writeChan]
  rfl

/-! ## A bare machine -/

/-- A chip with no peripheral but its DMA block. -/
def bareBoard (v : Variant) : Board Unit where
  v := v
  noFast := false
  read := fun _ _ _ addr _ => .error (.bus addr)
  write := fun _ _ _ addr _ _ => .error (.bus addr)
  qmiDirect := fun _ => false
  streamCtr := fun _ => 0
  spiTxDma := fun _ => false
  consoleIn := fun _ => false
  spiRx := fun _ => false
  txPace := fun _ => 0
  lastTX := fun _ => 0
  hstxPace := fun _ => 0
  pioCtrl := fun _ => 0
  pioClkdiv := fun _ _ => 0

def ramOf (size : Nat) (words : List Word) : Ram :=
  ⟨size, fun i => (words.getD (i / 4) 0).extractLsb' (8 * (i % 4)) 8⟩

/-- The machine after reset, with the given words at the start of its SRAM. -/
def bareMachine (words : List Word) : Machine Unit where
  mem := ⟨ramOf 0x1000 words, ramOf 0 [], ramOf 0 [], (by decide : 0x1000 ≤ 0x82000),
    Nat.zero_le _, Nat.zero_le _⟩
  dma := ⟨fun _ => {}, fun _ => {}, 0, 0, 0, fun _ => 0, fun _ => 0⟩
  dev := ()
  cycle := 0
  hstxNext := 0
  pioNext := fun _ => 0
  prof := []
  traced := false
  watch := []
  watchHit := none
  rrLast := 0

end DmaCpu.Emu
