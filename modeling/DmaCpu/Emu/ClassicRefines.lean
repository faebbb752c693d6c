-- SUMMARY: The three channels of the classic machine run the block interpreter.
import DmaCpu.Emu.Classic
import DmaCpu.Emu.Setup

/-!
# The classic machine refines the interpreter

A block of the interpreter is one or more steps of the machine, from fetch about
to start to fetch about to start. By induction so is a run, whatever the program
makes of its own words; and `SetupFetchExec` leaves the machine where the
interpreter begins.
-/
namespace DmaCpu.Emu

variable {δ : Type} {B : Board δ} {cfg : FetchExecConfig} {addr : Word} {mem : Mem}

open Sequential (State Stop Front)
open Sequential.State

/-! ## The channels -/

/-- The channels are distinct and there. -/
structure FetchExecConfig.Valid (cfg : FetchExecConfig) (v : Variant) : Prop where
  fetch : cfg.fetch < v.nChannels
  exec : cfg.exec < v.nChannels
  fix : cfg.fix < v.nChannels
  fetch_exec : cfg.fetch ≠ cfg.exec
  exec_fix : cfg.exec ≠ cfg.fix
  fetch_fix : cfg.fetch ≠ cfg.fix

theorem fetchCtrl_copies (cfg : FetchExecConfig) (v : Variant) (hi : cfg.fetch < 16) :
    Copies v (cfg.fetchCtrl v) cfg.fetch := by
  unfold FetchExecConfig.fetchCtrl
  generalize cfg.fetch = i at hi
  constructor <;> revert hi <;> revert i <;> cases v <;> decide

/-- Fetch goes straight through program and registers. -/
theorem fetchCtrl_strides (cfg : FetchExecConfig) (v : Variant) (hi : cfg.fetch < 16) :
    ({ ctrl := cfg.fetchCtrl v } : Channel).strideR v = 4 ∧
      ({ ctrl := cfg.fetchCtrl v } : Channel).strideW v = 4 ∧
      ({ ctrl := cfg.fetchCtrl v } : Channel).ringMaskR v = 0 ∧
      ({ ctrl := cfg.fetchCtrl v } : Channel).ringMaskW v = 0 := by
  unfold FetchExecConfig.fetchCtrl
  generalize cfg.fetch = i at hi
  revert i
  cases v <;> decide

theorem execRegs_ne (cfg : FetchExecConfig) (h : cfg.exec < 16) : cfg.execRegs ≠ 0 := by
  intro hzero
  have haddr := toNat_chanRegAddr h (r := 0) (by decide)
  rw [show chanRegAddr cfg.exec 0 = 0 from hzero] at haddr
  simp only [dmaBase, BitVec.ofNat_eq_ofNat, BitVec.toNat_ofNat] at haddr
  omega

variable {v : Variant}

theorem FetchExecConfig.Valid.front (h : cfg.Valid v) : (cfg.front v).Valid v cfg.exec where
  fetch_lt := h.fetch
  lt := h.exec
  aux_lt := h.fix
  fetch_ne := h.fetch_exec
  ne_aux := h.exec_fix
  fetch_aux := h.fetch_fix
  copies := fetchCtrl_copies cfg v (lt_sixteen h.fetch)
  count := (by cases v <;> decide : v.transCount 4 = 4)
  mode := (by cases v <;> decide : v.transMode 4 = 0)
  words := (by decide : (4 : Word) ≠ 0)
  home := execRegs_ne cfg (lt_sixteen h.exec)

/-- Fetch a word further. -/
theorem front_step (h : cfg.Valid v) (pc left : Word) (r : Nat) :
    Sequential.step v ((cfg.front v).chan pc (chanRegAddr cfg.exec r) left true) =
      (cfg.front v).chan (pc + 4) (chanRegAddr cfg.exec (r + 4)) (left - 1) true :=
  step_chan (fetchCtrl_strides cfg v (lt_sixteen h.fetch))
    (by rw [← chanRegAddr_add]; rfl)

variable {b : Block} {S' : State δ} {m : Machine δ}

namespace Classic

variable (S : State δ) {e : Channel}

/-- What holds between blocks. -/
structure Ready (B : Board δ) (cfg : FetchExecConfig) (S : State δ) : Prop where
  calm : S.Calm (cfg.front B.v) cfg.exec
  rewinds : S.Rewinds B (cfg.front B.v)

/-! ## Fetch -/

/-- Exec with the first three words of a block in it. -/
def loaded (e : Channel) (b : Block) : Channel :=
  { e with readAddr := b.read, writeAddr := b.write, reload := b.count }

/-- The machine when the whole block is in exec's registers and its trigger has fired. -/
def started (B : Board δ) (cfg : FetchExecConfig) (e : Channel) (b : Block) (S : State δ) : Core δ :=
  Sequential.State.started B (cfg.front B.v) cfg.exec 12 .ctrl (loaded e b) b.ctrl S

theorem fetchBlock_ok {S : State δ} (h : fetchBlock B cfg S = .ok (b, S')) :
    ∃ S₀ S₁ S₂ S₃ : State δ, S.fetchWord B = .ok (b.read, S₀) ∧ S₀.fetchWord B = .ok (b.write, S₁) ∧
      S₁.fetchWord B = .ok (b.count, S₂) ∧ S₂.fetchWord B = .ok (b.ctrl, S₃) ∧
      S' = { S₃ with window := cfg.execRegs + 16 } := by
  obtain ⟨⟨_, S₀⟩, h₀, h⟩ := Fallible.bind_eq_ok.mp h
  obtain ⟨⟨_, S₁⟩, h₁, h⟩ := Fallible.bind_eq_ok.mp h
  obtain ⟨⟨_, S₂⟩, h₂, h⟩ := Fallible.bind_eq_ok.mp h
  obtain ⟨⟨_, S₃⟩, h₃, h⟩ := Fallible.bind_eq_ok.mp h
  cases h
  exact ⟨S₀, S₁, S₂, S₃, h₀, h₁, h₂, h₃, rfl⟩

theorem Ready.fetchBlock {S : State δ} (hS : Ready B cfg S)
    (h : fetchBlock B cfg S = .ok (b, S')) : Ready B cfg S' := by
  obtain ⟨S₀, S₁, S₂, S₃, h₀, h₁, h₂, h₃, rfl⟩ := fetchBlock_ok h
  have hcalm := (((hS.calm.fetchWord h₀).fetchWord h₁).fetchWord h₂).fetchWord h₃
  have hrewinds := (((hS.rewinds.fetchWord h₀).fetchWord h₁).fetchWord h₂).fetchWord h₃
  exact ⟨⟨hcalm.erased, hcalm.idle⟩, hrewinds.same rfl rfl rfl⟩

/-- The four words of a block. -/
theorem leads_fetch (hv : cfg.Valid B.v) (hS : Ready B cfg S) (he : Idle e)
    (hpc : ∀ j < 4, inDMA (S.pc + BitVec.ofNat 32 (4 * j)) = false) :
    (S.fetching (cfg.front B.v) cfg.exec 0 4 e).Leads B
      ((fetchBlock B cfg S).map fun x => started B cfg e x.1 x.2) := by
  unfold fetchBlock
  simp only [bind, pure, Except.pure, Fallible.map_bind]
  have hF := hv.front
  have hpc₀ : inDMA S.pc = false := by simpa using hpc 0 (by decide)
  apply Core.Leads.andThen (S.leads_store hF hS.calm he hpc₀ (r := 0) (4 : Word) .readAddr
    (by decide) (by decide) (by decide) (by decide) (by decide) (by decide) (by decide)
    (front_step hv ..))
  intro x₀ h₀
  have hS₀ := hS.calm.fetchWord h₀
  have hp₀ := fetchWord_pc h₀
  have hpc₁ : inDMA x₀.2.pc = false := by rw [hp₀]; exact hpc 1 (by decide)
  have he₀ := he.writeChan B.v .readAddr x₀.1
  apply Core.Leads.andThen (x₀.2.leads_store hF hS₀ he₀ hpc₁ (r := 4) (3 : Word) .writeAddr
    (by decide) (by decide) (by decide) (by decide) (by decide) (by decide) (by decide)
    (front_step hv ..))
  intro x₁ h₁
  have hS₁ := hS₀.fetchWord h₁
  have hp₁ := fetchWord_pc h₁
  have hpc₂ : inDMA x₁.2.pc = false := by
    rw [hp₁, hp₀, BitVec.add_assoc]
    exact hpc 2 (by decide)
  have he₁ := he₀.writeChan B.v .writeAddr x₁.1
  apply Core.Leads.andThen (x₁.2.leads_store hF hS₁ he₁ hpc₂ (r := 8) (2 : Word) .transCount
    (by decide) (by decide) (by decide) (by decide) (by decide) (by decide) (by decide)
    (front_step hv ..))
  intro x₂ h₂
  have hpc₃ : inDMA x₂.2.pc = false := by
    rw [fetchWord_pc h₂, hp₁, hp₀, BitVec.add_assoc, BitVec.add_assoc]
    exact hpc 3 (by decide)
  exact x₂.2.leads_trigger hF (hS₁.fetchWord h₂) (he₁.writeChan B.v .transCount x₂.1) hpc₃
    (r := 12) (by decide) (by decide) (by decide) (by decide)

/-! ## What the trigger of a block does -/

/-- Exec when the block is in its registers. -/
def held (v : Variant) (e : Channel) (b : Block) : Channel :=
  Dma.writeChan v (loaded e b) .ctrl b.ctrl

theorem held_idle (he : Idle e) (b : Block) : Idle (held v e b) :=
  (((he.writeChan v .readAddr b.read).writeChan v .writeAddr b.write).writeChan v .transCount
    b.count).writeChan v .ctrl b.ctrl

/-- Fetch has passed exec's registers. -/
theorem lands (hv : cfg.Valid B.v) (hwin : S.window = cfg.execRegs + 16) :
    S.Lands B (cfg.front B.v) cfg.exec 12 := by
  unfold Lands
  rw [front_step hv, BitVec.sub_add_cancel, hwin]
  unfold FetchExecConfig.execRegs
  rw [show (16 : Word) = BitVec.ofNat 32 16 from rfl, chanRegAddr_add]
  rfl

/-! ## Blocks -/

theorem Writable.reaches {w : Width} (h : Writable B cfg addr w) :
    Sequential.State.Reaches B (cfg.front B.v) cfg.exec addr := by
  intro hdma ht
  rcases h.dma hdma with h | h | h <;> rw [h] at ht <;> cases ht

theorem Writable.spares {w : Width} (h : Writable B cfg addr w) :
    Spares B (cfg.front B.v) cfg.exec addr w where
  dma := by
    intro hdma ht
    rcases h.dma hdma with h | h | h <;> rw [h] at ht <;> cases ht
  scratch := h.scratch

theorem Ready.datum {S : State δ} (hS : Ready B cfg S) {c : Channel}
    (hw : ∀ w, ctrlDataSize c.ctrl = some w → Writable B cfg c.writeAddr w)
    (h : S.datum B (cfg.front B.v) cfg.exec c = .ok S') : Ready B cfg S' :=
  ⟨hS.calm.datum h, hS.rewinds.datum (fun w hsize => (hw w hsize).spares) h⟩

theorem Ready.transfer {S : State δ} (hS : Ready B cfg S) (hb : b.Moves B cfg) {n : Nat}
    (hn : n ≤ (B.v.transCount b.count).toNat)
    (h : S.transfer B (cfg.front B.v) cfg.exec n (b.chan B.v) = .ok S') : Ready B cfg S' := by
  refine transfer_invariant (fun j hj S S' hS h => ?_) hn hS h
  have hctrl := (step_iterate (v := B.v) j (b.chan B.v) (Nat.le_of_lt hj)).1
  exact hS.datum (fun w hsize => hb.writes j hj w (by rw [← hctrl]; exact hsize)) h

/-- The data of a block: each finds the machine calm, and writes where it may. -/
theorem Ready.runs {S : State δ} (hS : Ready B cfg S) (hb : b.Moves B cfg) :
    S.Runs B (cfg.front B.v) cfg.exec (B.v.transCount b.count).toNat (b.chan B.v) := by
  intro j hj S' h
  exact ⟨(hS.transfer hb (Nat.le_of_lt hj) h).calm, fun w hsize => (hb.writes j hj w hsize).reaches⟩

theorem chan_launched {b : Block} (hb : b.Moves B cfg) (hcount : B.v.transCount b.count ≠ 0) :
    Launched B.v (b.chan B.v) where
  erased := rfl
  enabled := hb.enabled
  unpaced := hb.unpaced
  busy := rfl
  alive := rfl
  once := hb.once
  some := hcount

/-- A block that moves something, as one or more steps. -/
theorem leads_moves (hv : cfg.Valid B.v) (hwin : S.window = cfg.execRegs + 16) (hS : Ready B cfg S)
    (he : Idle e) (hctrl : b.ctrl ≠ 0) (hb : b.Moves B cfg) :
    ∃ e', Idle e' ∧ (started B cfg e b S).Leads B
      ((S.transfer B (cfg.front B.v) cfg.exec (B.v.transCount b.count).toNat (b.chan B.v)).map fun S =>
        ((S.signalled B.v cfg.exec (b.chan B.v)).rewound (cfg.front B.v)).fetching (cfg.front B.v)
          cfg.exec 0 4 e') := by
  -- fix's turn, after which fetch is at the start of exec's registers
  have hfix : ∀ (S : State δ) (e' : Channel), Ready B cfg S → Idle e' →
      ((S.signalled B.v cfg.exec (b.chan B.v)).rewindTurn B (cfg.front B.v) cfg.exec e').Leads B
        (.ok (((S.signalled B.v cfg.exec (b.chan B.v)).rewound (cfg.front B.v)).fetching
          (cfg.front B.v) cfg.exec 0 4 e')) := fun S e' hS he' =>
    (S.signalled B.v cfg.exec (b.chan B.v)).leads_rewind hv.front (hS.calm.signalled B.v _)
      (hS.rewinds.signalled B.v cfg.exec _) he'
  by_cases hcount : B.v.transCount b.count = 0
  · have hidle : Idle ((held B.v e b).latch B.v).free := by
      obtain ⟨herased, -, halive⟩ := held_idle (v := B.v) he b
      refine ⟨?_, rfl, halive⟩
      rw [Channel.erase_free, Channel.erase_latch, herased]
    have hzero : (held B.v e b).zeroLength B.v = true := by
      unfold Channel.zeroLength
      rw [Bool.and_eq_true, decide_eq_true_eq, decide_eq_true_eq]
      exact ⟨hcount, hb.once.2⟩
    refine ⟨_, hidle, ?_⟩
    rw [started, S.started_empty hv.front (by decide) (lands S hv hwin) hS.calm hS.rewinds hctrl
      (held B.v e b) rfl hb.enabled he.free hzero hb.chained hb.once.1, hcount]
    exact hfix S _ hS hidle
  · have hc := chan_launched hb hcount
    obtain ⟨hspentCtrl, hspentMode, -, -, hidle⟩ := spent_spec hc
    have harmed : Dma.Armed B.v (held B.v e b) := by
      refine ⟨hb.enabled, he.free, ?_⟩
      unfold Channel.zeroLength
      rw [Bool.and_eq_false_iff]
      left
      exact decide_eq_false hcount
    have hlaunch : (held B.v e b).launch B.v = b.chan B.v := by
      unfold held loaded Channel.launch Channel.latch Dma.writeChan Block.chan
      simp [he.alive]
    refine ⟨_, hidle, ?_⟩
    rw [started, S.started_armed hv.front (by decide) (lands S hv hwin) hctrl
      (held B.v e b) rfl harmed, hlaunch]
    have hend : ∀ S', S.transfer B (cfg.front B.v) cfg.exec (B.v.transCount b.count).toNat
        (b.chan B.v) = .ok S' →
        (Core.mk ((S'.dma (cfg.front B.v) cfg.exec (S'.rest (cfg.front B.v))
          (spent B.v (b.chan B.v))).complete B.v cfg.exec) S'.mem S'.dev
            S'.cycle).Leads B
          (.ok (((S'.signalled B.v cfg.exec (b.chan B.v)).rewound (cfg.front B.v)).fetching
            (cfg.front B.v) cfg.exec 0 4 (spent B.v (b.chan B.v)).free)) := by
      intro S' htransfer
      have hS' := hS.transfer hb (Nat.le_refl _) htransfer
      have hchain : (spent B.v (b.chan B.v)).chainTo B.v = cfg.fix := by
        unfold Channel.chainTo
        rw [hspentCtrl]
        exact hb.chained
      rw [S'.complete_rewind hv.front hS'.calm hS'.rewinds hchain
        (by rw [hspentMode]; exact hb.once.1), signalled_ctrl hspentCtrl]
      exact hfix S' _ hS' hidle
    have hall := (S.leads_data hv.front hc (hS.runs hb)).andThen hend
    cases htransfer : S.transfer B (cfg.front B.v) cfg.exec (B.v.transCount b.count).toNat
        (b.chan B.v) with
    | error f => exact htransfer ▸ hall
    | ok S' => exact htransfer ▸ hall

/-! ## Runs -/

/-- The machine stands where the interpreter does, with fetch about to start. -/
def At (B : Board δ) (cfg : FetchExecConfig) (m : Machine δ) (S : State δ) : Prop :=
  Ready B cfg S ∧ ∃ e, Idle e ∧ m.core = S.fetching (cfg.front B.v) cfg.exec 0 4 e

theorem Ready.retire {S : State δ} (hS : Ready B cfg S) (b : Block) :
    Ready B cfg ((S.signalled B.v cfg.exec (b.chan B.v)).rewound (cfg.front B.v)) :=
  ⟨(hS.calm.signalled B.v _).rewound, (hS.rewinds.signalled B.v cfg.exec _).rewound⟩

/-- One block. -/
theorem exec_refines (hv : cfg.Valid B.v) (hat : At B cfg m S) (hgood : Good B cfg S) : ∃ k, 0 < k ∧
      Sequential.Outcome (At B cfg) cfg.fetch (iter (Machine.next B) k m) (exec B cfg S) := by
  obtain ⟨hS, e, he, hcore⟩ := hat
  have hfetch := leads_fetch S hv hS he hgood.pc
  unfold exec
  cases hblock : fetchBlock B cfg S with
  | error f =>
    rw [hblock] at hfetch
    obtain ⟨k, hk, hrun⟩ := hfetch m hcore
    exact ⟨k, hk, eq_error_of_map hrun⟩
  | ok x =>
    obtain ⟨b, S₁⟩ := x
    rw [hblock] at hfetch
    have hS₁ := hS.fetchBlock hblock
    have hwin : S₁.window = cfg.execRegs + 16 := by
      obtain ⟨-, -, -, -, -, -, -, -, rfl⟩ := fetchBlock_ok hblock
      rfl
    simp only
    by_cases hctrl : b.ctrl = 0
    · rw [if_pos hctrl]
      obtain ⟨regs, hcalm, hnull⟩ := S₁.started_null (e := loaded e b) (g := .ctrl) hv.front
        (by decide : 12 < chanStride) (lands S₁ hv hwin) hS₁.calm hctrl
      obtain ⟨k, hk, hrun⟩ := hfetch m hcore
      obtain ⟨m', hm', hcore'⟩ := Fallible.map_eq_ok.mp hrun
      have hhalt := hcore'.trans hnull
      obtain ⟨hmem, hdev, hcycle, hsc, hsd, hpc⟩ := Sequential.agrees_of_core hv.front hhalt rfl
      exact ⟨k, hk, m', hm', ⟨hmem, hdev, hcycle, hsc, hsd, hpc⟩,
        Sequential.idle_of_core hv.front hcalm rfl (held_idle he b).free hhalt⟩
    · rw [if_neg hctrl]
      have hb := (hgood.block b S₁ hblock).resolve_left hctrl
      obtain ⟨e', he', hmoves⟩ := leads_moves S₁ hv hwin hS₁ he hctrl hb
      obtain ⟨k, hk, hrun⟩ := hfetch.trans hmoves m hcore
      refine ⟨k, hk, ?_⟩
      cases htransfer : S₁.transfer B (cfg.front B.v) cfg.exec (B.v.transCount b.count).toNat
          (b.chan B.v) with
      | error f =>
        rw [htransfer] at hrun
        exact eq_error_of_map hrun
      | ok S₂ =>
        rw [htransfer] at hrun
        obtain ⟨m', hm', hcore'⟩ := Fallible.map_eq_ok.mp hrun
        have hS₂ := hS₁.transfer hb (Nat.le_refl _) htransfer
        exact ⟨m', hm', hS₂.retire b, e', he', hcore'⟩

end Classic

/-! ## Setup -/

theorem FetchExecConfig.writes_eq (cfg : FetchExecConfig) (v : Variant) :
    cfg.writes v = (cfg.scratch, cfg.execRegs) ::
      (chanPokes cfg.fix ((cfg.front v).auxWrites v) ++ (cfg.front v).fetchWrites cfg.entry) := rfl

theorem Core.put_scratch {d : Dma} {dev : δ} {cycle : Nat} {a x : Word}
    (hin : mem.inSRAM a .word = true) (hal : a.toNat % 4 = 0) :
    (Core.mk d mem dev cycle).put B a x .word =
      .ok ⟨d, mem.store .sram (a.toNat - sramBase) x .word, dev, cycle⟩ := by
  have hal' : ¬ a.toNat % Width.word.bytes ≠ 0 := not_not.2 hal
  have hdma : inDMA a = false := by
    have hle := mem.sram_le
    have hbounds := (Mem.inSRAM_iff ..).1 hin
    rw [← Bool.not_eq_true, inDMA_iff]
    simp only [sramBase, dmaBase, Width.bytes] at *
    omega
  unfold put busWrite
  rw [if_neg hal', hdma, if_pos hin]
  rfl

/-- The core that `SetupFetchExec` leaves. -/
theorem Core.pokes_writes (hv : cfg.Valid B.v) {d : Dma} (dev : δ) (cycle : Nat)
    (herased : d.erase = d) (hidle : ∀ j, (d.ch j).busy = false ∧ (d.ch j).wedged = false)
    (hin : mem.inSRAM cfg.scratch .word = true) (hal : cfg.scratch.toNat % 4 = 0) :
    (Core.mk d mem dev cycle).pokes B (cfg.writes B.v) = .ok
      ⟨(d.setCh cfg.fix ((cfg.front B.v).aimed B.v (d.ch cfg.fix))).setCh cfg.fetch
          ((cfg.front B.v).chan cfg.entry cfg.execRegs 4 true),
        mem.store .sram (cfg.scratch.toNat - sramBase) cfg.execRegs .word, dev, cycle⟩ := by
  have hch : (d.ch cfg.fix).erase = d.ch cfg.fix := congrArg (fun d : Dma => d.ch cfg.fix) herased
  rw [cfg.writes_eq, pokes, put_scratch hin hal]
  simp only [Except.bind]
  generalize mem.store .sram (cfg.scratch.toNat - sramBase) cfg.execRegs .word = mem'
  -- the fix channel, and with it `d'`
  have hfix := pokes_chan mem' dev cycle herased hv.fix ((cfg.front B.v).auxWrites B.v)
    (d.ch cfg.fix) hch ((cfg.front B.v).plain_auxWrites B.v)
  rw [d.setCh_self, (cfg.front B.v).stores_auxWrites B.v (lt_sixteen hv.fix)] at hfix
  rw [pokes_append, hfix]
  have herase : ((cfg.front B.v).aimed B.v (d.ch cfg.fix)).erase =
      (cfg.front B.v).aimed B.v (d.ch cfg.fix) := congrArg ((cfg.front B.v).aimed B.v) hch
  have hfetch : (d.setCh cfg.fix ((cfg.front B.v).aimed B.v (d.ch cfg.fix))).ch cfg.fetch =
      d.ch cfg.fetch := Dma.setCh_other _ hv.fetch_fix _
  generalize hd' : d.setCh cfg.fix ((cfg.front B.v).aimed B.v (d.ch cfg.fix)) = d' at hfetch ⊢
  have herased' : d'.erase = d' := by
    rw [← hd', Dma.erase_setCh, herased, herase]
  exact pokes_fetch hv.front mem' dev cycle herased' (hfetch ▸ (hidle cfg.fetch).1)
    (hfetch ▸ (hidle cfg.fetch).2) cfg.entry

theorem setup_valid {m₀ : Machine δ} (h : setupFetchExec B m cfg = .ok m₀) :
    cfg.Valid B.v ∧ m.pokes B (cfg.writes B.v) = .ok m₀ := by
  unfold setupFetchExec at h
  split at h
  · cases h
  next hne =>
    split at h
    · cases h
    next hlt =>
      split at h
      · cases h
      simp only [not_or, Nat.not_le] at hne hlt
      exact ⟨⟨hlt.1, hlt.2.1, hlt.2.2, hne.1, hne.2.1, hne.2.2⟩, h⟩

theorem aligned_of_pokes {c c' : Core δ} {ws : List (Word × Word)} {a x : Word}
    (h : c.pokes B ((a, x) :: ws) = .ok c') : a.toNat % 4 = 0 := by
  by_contra hal
  have hput : c.put B a x .word = .error (.unaligned a) := if_pos hal
  rw [Core.pokes, hput] at h
  cases h

/-- `SetupFetchExec` leaves the machine where the interpreter begins. -/
theorem setup_at {m₀ : Machine δ} (h : setupFetchExec B m cfg = .ok m₀)
    (hidle : ∀ j, (m.dma.ch j).busy = false ∧ (m.dma.ch j).wedged = false)
    (hin : m.mem.inSRAM cfg.scratch .word = true) : Classic.At B cfg m₀ (Classic.boot cfg m₀) := by
  obtain ⟨hv, hpokes⟩ := setup_valid h
  have hcore := Machine.pokes_core B hpokes
  have hal := aligned_of_pokes hcore
  have hset := Core.pokes_writes hv m.dev m.cycle m.dma.erase_erase hidle hin hal
  have hm₀ : m₀.core = _ := Except.ok.inj (hcore.symm.trans hset)
  have hdma := congrArg Core.dma hm₀
  have hmem : m₀.mem = _ := congrArg Core.mem hm₀
  have hfetch : m₀.core.dma.ch cfg.fetch =
      (cfg.front B.v).chan cfg.entry cfg.execRegs 4 true := by
    rw [hdma]
    exact Dma.setCh_same ..
  have hfix : m₀.core.dma.ch cfg.fix = (cfg.front B.v).aimed B.v (m.dma.erase.ch cfg.fix) := by
    rw [hdma]
    rw [Dma.setCh_other _ hv.fetch_fix.symm, Dma.setCh_same]
  have hother : ∀ j, j ≠ cfg.fetch → j ≠ cfg.fix → m₀.core.dma.ch j = m.dma.erase.ch j := by
    intro j hjf hjx
    rw [hdma]
    rw [Dma.setCh_other _ hjf, Dma.setCh_other _ hjx]
  have hcalm : (Classic.boot cfg m₀).Calm (cfg.front B.v) cfg.exec := by
    refine ⟨rfl, fun j hjf _ => ?_⟩
    change (m₀.core.dma.ch j).busy = false
    by_cases hj : j = cfg.fix
    · rw [hj, hfix]
      exact (hidle cfg.fix).1
    · rw [hother j hjf hj]
      exact (hidle j).1
  have hin₀ : m₀.mem.inSRAM cfg.scratch .word = true := by
    rw [hmem, Mem.inSRAM_iff, Mem.sram_store_sram, Ram.size_store]
    exact (Mem.inSRAM_iff ..).1 hin
  have hload : m₀.mem.sram.load (cfg.scratch.toNat - sramBase) .word = cfg.execRegs := by
    rw [hmem, Mem.sram_store_sram, Ram.load_store_word]
  have hrewinds : (Classic.boot cfg m₀).Rewinds B (cfg.front B.v) :=
    rewinds_of_aimed hfix (hidle cfg.fix).2 hin₀ hal hload
  refine ⟨⟨hcalm, hrewinds⟩, m₀.core.dma.ch cfg.exec, ?_, ?_⟩
  · rw [hother _ hv.fetch_exec.symm hv.exec_fix]
    exact ⟨rfl, (hidle cfg.exec).1, (hidle cfg.exec).2⟩
  · have hwhole : (Classic.boot cfg m₀).dma (cfg.front B.v) cfg.exec
        ((cfg.front B.v).chan cfg.entry cfg.execRegs 4 true) (m₀.core.dma.ch cfg.exec) =
        m₀.core.dma := by
      rw [← hfetch]
      exact (Classic.boot cfg m₀).dma_self (F := cfg.front B.v) rfl
    exact congrArg (Core.mk · m₀.mem m₀.dev m₀.cycle) hwhole.symm

open Classic

/-- The classic machine is a sequential block processor: after `SetupFetchExec`
    on an idle controller it passes, at increasing times, through the states of
    the interpreter, as long as every block it meets is one it can run. -/
theorem classic_sequential {m m₀ : Machine δ} (hsetup : setupFetchExec B m cfg = .ok m₀)
    (hidle : ∀ j, (m.dma.ch j).busy = false ∧ (m.dma.ch j).wedged = false)
    (hscratch : m.mem.inSRAM cfg.scratch .word = true)
    (hgood : ∀ n S, iter (exec B cfg) n (boot cfg m₀) = .ok S →
      Good B cfg S) :
    ∃ t : Nat → Nat, t 0 = 0 ∧ ∀ n,
      Sequential.Reaches cfg.fetch (iter (Machine.next B) (t n) m₀)
        (iter (exec B cfg) n (boot cfg m₀)) ∧
      ((∃ S, iter (exec B cfg) n (boot cfg m₀) = .ok S) →
        t n < t (n + 1)) := by
  obtain ⟨hv, -⟩ := setup_valid hsetup
  have hat : ∀ m S, At B cfg m S → Sequential.Agrees cfg.fetch m S := by
    rintro m S ⟨-, e, -, hcore⟩
    exact Sequential.agrees_of_core hv.front hcore rfl
  obtain ⟨t, h₀, ht⟩ := Sequential.exists_run
    (fun _ S hat hS => exec_refines S hv hat hS) (setup_at hsetup hidle hscratch) hgood
  exact ⟨t, h₀, fun n => ⟨(ht n).1.reaches hat, (ht n).2⟩⟩

namespace Classic.Demo

def config : FetchExecConfig := ⟨0, 1, 2, 0x20000000, 0x200000F0⟩

/-- One block that copies a word, the block that stops, and the word. -/
def words (v : Variant) (count : Word) : List Word :=
  [0x20000020, 0x20000080, count, config.execCtrl v ||| v.ctrlIncrWrite, 0, 0, 0, 0, 5]

/-- The machine set up on it. -/
def start (v : Variant) (count : Word) : Except SetupError (Machine Unit) :=
  setupFetchExec (bareBoard v) (bareMachine (words v count)) config

/-- The block the interpreter stands at after `n` blocks. -/
def blockAfter (v : Variant) (count : Word) (n : Nat) : Option Block :=
  match start v count with
  | .error _ => none
  | .ok m₀ =>
    match iter (exec (bareBoard v) config) n (boot config m₀) with
    | .error _ => none
    | .ok S => (fetchBlock (bareBoard v) config S).toOption.map Prod.fst

/-- The first block. -/
def copy (v : Variant) (count : Word) : Block :=
  ⟨0x20000020, 0x20000080, count, config.execCtrl v ||| v.ctrlIncrWrite⟩

end Classic.Demo

open Classic.Demo Fallible

theorem classic_sequential_copy : ∃ m₀, start .rp2350 1 = .ok m₀ ∧
    ∃ t : Nat → Nat, t 0 = 0 ∧ ∀ n,
      Sequential.Reaches config.fetch (iter (Machine.next (bareBoard .rp2350)) (t n) m₀)
        (iter (exec (bareBoard .rp2350) config) n
          (boot config m₀)) ∧
      ((∃ S, iter (exec (bareBoard .rp2350) config) n
          (boot config m₀) = .ok S) → t n < t (n + 1)) := by
  -- the second block stops the interpreter
  have hgood : okAnd (start .rp2350 1) (fun m₀ => passes (exec (bareBoard .rp2350) config)
      (fun S => decide (Good (bareBoard .rp2350) config S)) 2 (boot config m₀)) = true := by
    decide +kernel
  obtain ⟨m₀, hstart, hgood⟩ := okAnd_eq_true.mp hgood
  exact ⟨m₀, hstart, classic_sequential hstart (fun _ => ⟨rfl, rfl⟩) (by decide)
    fun n S h => of_decide_eq_true (of_passes (p := fun S => decide (Good _ _ S)) hgood h)⟩

/-- With `TRIGGER_SELF` in the top bits of its count the same block also restarts
    exec. The interpreter stops after it; on the machine exec never comes to rest,
    and runs into the registers of the next block. -/
theorem classic_trigger_self : ∃ m₀, start .rp2350 0x10000001 = .ok m₀ ∧
    blockAfter .rp2350 0x10000001 0 = some (copy .rp2350 0x10000001) ∧
    blockAfter .rp2350 0x10000001 1 = some ⟨0, 0, 0, 0⟩ ∧
    ((copy .rp2350 0x10000001).chan .rp2350).enabled = true ∧
    ((copy .rp2350 0x10000001).chan .rp2350).treq .rp2350 = treqPermanent ∧
    ((copy .rp2350 0x10000001).chan .rp2350).chainTo .rp2350 = config.fix ∧
    Writable (bareBoard .rp2350) config
      (copy .rp2350 0x10000001).write .word ∧
    (∃ S, iter (exec (bareBoard .rp2350) config) 2
      (boot config m₀) = .error (.halt S)) ∧
    ∀ k m, iter (Machine.next (bareBoard .rp2350)) k m₀ = .ok m → ∃ j, (m.dma.ch j).busy = true := by
  have hrun : okAnd (start .rp2350 0x10000001) (fun m₀ =>
      (match iter (exec (bareBoard .rp2350) config) 2 (boot config m₀) with
        | .error (.halt _) => true
        | _ => false) &&
      passes (Machine.next (bareBoard .rp2350))
        (fun m => (List.range 3).any fun j => (m.dma.ch j).busy) 8 m₀) = true := by
    decide +kernel
  obtain ⟨m₀, hstart, hrun⟩ := okAnd_eq_true.mp hrun
  obtain ⟨hhalts, hbusy⟩ := (Bool.and_eq_true ..).mp hrun
  refine ⟨m₀, hstart, by decide +kernel, by decide +kernel, by decide, by decide, by decide,
    by decide, ?_, fun k m hk => ?_⟩
  · split at hhalts
    next S hS => exact ⟨S, hS⟩
    next => cases hhalts
  · have hany := of_passes hbusy hk
    obtain ⟨j, -, hj⟩ := List.any_eq_true.mp hany
    exact ⟨j, hj⟩

end DmaCpu.Emu
