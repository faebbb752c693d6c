-- SUMMARY: From an image to a started machine, by the host's loader and by the chip's.
import DmaCpu.Dmx.Chip
import DmaCpu.Dmx.LoadSound

/-!
# The two paths

`Decode`, `Load` and `SetupFetchExec` on one side, `dmx_load` and `dmx_start` on the
other, from one chip. A path that does not get to a started machine (an error, a
panic, a store that the bus refuses) rejects.
-/
namespace DmaCpu.Dmx

open Emu

/-- `sort.Slice` by start: some order of the same extents. -/
structure Sorter where
  sort : List Extent → List Extent
  perm : ∀ es, (sort es).Perm es
  sorted : ∀ es, (sort es).Pairwise fun a b => a.start ≤ b.start

/-- What a path that accepts leaves: the entry, the init writes in order, the chip. -/
structure Started (δ : Type) where
  entry : Word
  inits : List (Word × Word)
  chip : Chip δ

/-- The init writes of `Load`, with their values. -/
def Image.inits (im : Image) (delta : List Word) : List (Word × Word) :=
  im.writes.map fun w =>
    (w.addr, if w.ref ≠ refAbs then w.value + delta.getD w.ref.toNat 0 else w.value)

section Paths

variable {δ : Type} (B : Board δ) (cfg : MachineCfg)

/-- `SetupFetchExec`, of either form. -/
def MachineCfg.setup (m : Machine δ) (entry : Word) : Except SetupError (Machine δ) :=
  if cfg.compact then Compact.setupFetchExec B m entry
  else setupFetchExec B m ⟨cfg.fetch, cfg.exec, cfg.fix, entry, cfg.scratch⟩

/-- `Decode`, `Load`, `SetupFetchExec`, on a machine that has loaded nothing yet. -/
def goPath (S : Sorter) (raw : List Byte) (addr : Nat → Word) (m : Machine δ) :
    Option (Started δ) := do
  let pl : Placement := fun i => some (addr i)
  let im ← (decode raw).toOption
  let (entry, h) ← (im.load B S.sort pl ⟨m, []⟩).toOption
  let m ← (cfg.setup B h.m entry).toOption
  return ⟨entry, im.inits (im.deltas pl), chip m⟩

/-- `dmx_load`, `dmx_start`. -/
def cPath (s : Source) (c : Chip δ) : Option (Started δ) := do
  let load := (dmxLoad (chipBus B) s).exec ⟨.ok c, []⟩
  let entry ← load.1.toOption
  let start := (dmxStart B.v (chipBus B) cfg entry).exec ⟨load.2.state, []⟩
  start.1.toOption
  let c ← start.2.state.toOption
  return ⟨entry, load.2.log.filterMap Access.mmio?, c⟩

end Paths

/-! ## The C path -/

section CPath

variable {δ : Type} (B : Board δ) (cfg : MachineCfg) (s : Source) (c : Chip δ)

theorem cPath_of_refused (h : ¬(s.Accepted ∧ cfg.StartOk s.entry)) : cPath B cfg s c = none := by
  unfold cPath
  dsimp only
  by_cases hacc : s.Accepted
  · obtain ⟨_, _, hstart⟩ := dmxStart_does (chipBus B) B.v cfg s.entry
    obtain ⟨e, he⟩ := hstart.refused (fun hok => h ⟨hacc, hok⟩)
      ⟨((dmxLoad (chipBus B) s).exec ⟨.ok c, []⟩).2.state, []⟩
    rw [(dmxLoad_does (chipBus B) s).ok hacc]
    show (Logged.exec (dmxStart B.v (chipBus B) cfg s.entry) _).1.toOption.bind _ = none
    rw [he]
    rfl
  · obtain ⟨e, he⟩ := (dmxLoad_does (chipBus B) s).refused hacc ⟨.ok c, []⟩
    rw [he]
    rfl

theorem cPath_of_accepted (hacc : s.Accepted) (hstart : cfg.StartOk s.entry) :
    cPath B cfg s c =
      ((chipBus B).writes (s.loaded (chipBus B) (.ok c)) (cfg.startWrites B.v s.entry)).toOption.map
        fun c => ⟨s.entry, s.inits, c⟩ := by
  obtain ⟨_, _, hdoes⟩ := dmxStart_does (chipBus B) B.v cfg s.entry
  have hload := (dmxLoad_does (chipBus B) s).ok hacc ⟨.ok c, []⟩
  have hstate := (dmxLoad_does (chipBus B) s).state ⟨.ok c, []⟩ _ hload
  have hseen := (dmxLoad_does (chipBus B) s).seen ⟨.ok c, []⟩ _ hload
  unfold cPath
  dsimp only
  rw [hload, hseen, hstate]
  have hok := hdoes.ok hstart ⟨s.loaded (chipBus B) (.ok c), []⟩
  have hfinal := hdoes.state ⟨s.loaded (chipBus B) (.ok c), []⟩ () hok
  show (Logged.exec (dmxStart B.v (chipBus B) cfg s.entry)
    ⟨s.loaded (chipBus B) (.ok c), []⟩).1.toOption.bind (fun _ => Option.bind _ _) = _
  rw [hok, hfinal]
  cases (chipBus B).writes (s.loaded (chipBus B) (.ok c)) (cfg.startWrites B.v s.entry) <;> rfl

end CPath

/-! ## The host's init writes and start -/

section Host

variable {δ : Type} (B : Board δ) (cfg : MachineCfg) {entry : Word}

theorem initWrites_chip {delta : List Word} {ws : List Write}
    (hws : ∀ w ∈ ws, w.ref = refAbs ∨ w.ref.toNat < delta.length) (i : Nat) (m : Machine δ) :
    ((initWrites B delta i ws m).toOption).map chip = ((chip m).writes B (ws.map fun w =>
      (w.addr, if w.ref ≠ refAbs then w.value + delta.getD w.ref.toNat 0 else w.value))).toOption := by
  induction ws generalizing i m with
  | nil => rfl
  | cons w ws ih =>
    obtain ⟨hw, hws⟩ := List.forall_mem_cons.mp hws
    have hval : (if w.ref ≠ refAbs then (delta[w.ref.toNat]?).map (w.value + ·) else some w.value) =
        some (if w.ref ≠ refAbs then w.value + delta.getD w.ref.toNat 0 else w.value) := by
      by_cases habs : w.ref = refAbs
      · rw [if_neg (not_not.mpr habs), if_neg (not_not.mpr habs)]
      · have hlt := hw.resolve_left habs
        rw [if_pos habs, if_pos habs, List.getElem?_eq_getElem hlt, List.getD_eq_getElem _ _ hlt]
        rfl
    rw [initWrites, List.map_cons, Chip.writes]
    simp only [hval]
    generalize (if w.ref ≠ refAbs then w.value + delta.getD w.ref.toNat 0 else w.value) = v
    cases hstep : m.write B w.addr v .word with
    | error f =>
      rw [chip_write_error B hstep]
      rfl
    | ok m₁ =>
      rw [chip_write_ok B hstep]
      exact ih hws (i + 1) m₁

theorem chReg_eq (ch off : Nat) : chReg ch (BitVec.ofNat 32 off) = chanRegAddr ch off := by
  rw [chanRegAddr, BitVec.ofNat_add, BitVec.ofNat_add, BitVec.ofNat_mul]
  rfl

theorem ctrlChainTo_eq (v : Variant) : ∀ ch < 16, ctrlChainTo v ch = v.ctrlChainTo ch := by
  cases v <;> decide

theorem startWrites_compact (v : Variant) (entry : Word) (h : cfg.compact = true) :
    cfg.startWrites v entry = Compact.fetchWrites v entry := by
  rw [MachineCfg.startWrites, if_pos h]
  cases v <;> rfl

theorem startWrites_classic (v : Variant) (entry : Word) (h : cfg.compact = false)
    (hfetch : cfg.fetch < 16) (hfix : cfg.fix < 16) : cfg.startWrites v entry =
      FetchExecConfig.writes ⟨cfg.fetch, cfg.exec, cfg.fix, entry, cfg.scratch⟩ v := by
  rw [MachineCfg.startWrites, h]
  unfold classicWrites FetchExecConfig.writes FetchExecConfig.fixCtrl FetchExecConfig.fetchCtrl
    FetchExecConfig.execRegs
  simp only [← chReg_eq, ← ctrlChainTo_eq v _ hfetch, ← ctrlChainTo_eq v _ hfix]
  cases v <;> rfl

/-- The channels of a classic machine are there. -/
def MachineCfg.ChansOk (v : Variant) : Prop := cfg.compact = false →
  cfg.fetch < v.nChannels ∧ cfg.exec < v.nChannels ∧ cfg.fix < v.nChannels

theorem nChannels_le (v : Variant) : v.nChannels ≤ 16 := by cases v <;> decide

theorem setup_eq (hstart : cfg.StartOk entry) (hchans : cfg.ChansOk B.v)
    (m : Machine δ) : cfg.setup B m entry = m.pokes B (cfg.startWrites B.v entry) := by
  unfold MachineCfg.setup MachineCfg.StartOk at *
  cases hc : cfg.compact with
  | true =>
    rw [hc] at hstart
    rw [if_pos rfl, startWrites_compact cfg B.v entry hc]
    exact if_neg (not_not.mpr (congrArg BitVec.toNat hstart))
  | false =>
    rw [hc] at hstart
    obtain ⟨hfetch, hexec, hfix⟩ := hchans hc
    have hle := nChannels_le B.v
    rw [if_neg Bool.false_ne_true, startWrites_classic cfg B.v entry hc (by omega) (by omega),
      setupFetchExec, if_neg hstart.1, if_neg (by simp only; omega)]
    exact if_neg (not_not.mpr (congrArg BitVec.toNat hstart.2))

theorem startOk_of_setup {m m' : Machine δ} (h : cfg.setup B m entry = .ok m') :
    cfg.StartOk entry ∧ cfg.ChansOk B.v := by
  unfold MachineCfg.setup at h
  unfold MachineCfg.StartOk MachineCfg.ChansOk
  cases hc : cfg.compact with
  | true =>
    rw [hc, if_pos rfl, Compact.setupFetchExec] at h
    split at h
    · cases h
    · rename_i hmod
      exact ⟨BitVec.eq_of_toNat_eq (not_not.mp hmod), fun hf => by cases hf⟩
  | false =>
    rw [hc, if_neg Bool.false_ne_true, setupFetchExec] at h
    split at h
    · cases h
    · rename_i hsame
      split at h
      · cases h
      · rename_i hrange
        split at h
        · cases h
        · rename_i hmod
          simp only at hrange
          exact ⟨⟨hsame, BitVec.eq_of_toNat_eq (not_not.mp hmod)⟩, fun _ => by omega⟩

end Host

end DmaCpu.Dmx
