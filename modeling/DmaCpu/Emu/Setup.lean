-- SUMMARY: How a sequential processor is set up: the rewinding channel, then fetch.
import DmaCpu.Emu.Poke
import DmaCpu.Emu.Follows

/-!
# Setup

Both machines are configured by the same writes, with their own channels and CTRL
words: four to the rewinding channel, and four to fetch, of which the last starts
it.
-/
namespace DmaCpu.Emu

variable {δ : Type} {B : Board δ} {c : Channel}

namespace Sequential.Front

variable (F : Front) (v : Variant)

/-- The registers of the rewinding channel. -/
def auxWrites : List (Nat × Word) :=
  [(offAl1ReadAddr, F.scratch), (offAl1WriteAddr, chanRegAddr F.fetch offAl2WriteAddrTrig),
    (offAl2TransCount, 1), (offAl1Ctrl, F.auxCtrl v)]

/-- The rewinding channel with them in it. -/
def aimed (c : Channel) : Channel :=
  { c with
    readAddr := F.scratch
    writeAddr := chanRegAddr F.fetch offAl2WriteAddrTrig
    reload := 1
    ctrl := F.auxCtrl v }

theorem stores_auxWrites (h : F.aux < 16) (c : Channel) : c.stores v (F.auxWrites v) = F.aimed v c := by
  have hstores : c.stores v (F.auxWrites v) =
      { F.aimed v c with ctrl := F.auxCtrl v &&& ~~~v.ctrlBusy } := rfl
  rw [hstores, (auxCtrl_copies F v h).1.clean]
  rfl

theorem plain_auxWrites : ((F.auxWrites v).map Prod.fst).all plainReg = true := by
  unfold auxWrites
  simp only [List.map_cons, List.map_nil]
  decide

/-- The fetch channel with its pointers and count in it. -/
def primed (entry : Word) (c : Channel) : Channel :=
  { c with readAddr := entry, writeAddr := F.home, reload := F.words }

/-- The writes that start fetch. -/
def fetchWrites (entry : Word) : List (Word × Word) :=
  chanPokes F.fetch [(offReadAddr, entry), (offWriteAddr, F.home), (offTransCount, F.words)] ++
    [(chanRegAddr F.fetch offCtrlTrig, F.ctrl)]

variable {F v}

theorem launch_primed {i : Nat} (hv : F.Valid v i) (entry : Word)
    (hbusy : c.busy = false) (halive : c.wedged = false) :
    Dma.Armed v (Dma.writeChan v (F.primed entry c) .ctrl F.ctrl) ∧
      (Dma.writeChan v (F.primed entry c) .ctrl F.ctrl).launch v =
        F.chan entry F.home F.words true := by
  have hwrite : Dma.writeChan v (F.primed entry c) .ctrl F.ctrl =
      { F.primed entry c with ctrl := F.ctrl } := by
    unfold Dma.writeChan
    simp [hv.copies.clean]
  rw [hwrite]
  refine ⟨⟨hv.copies.enabled, hbusy, ?_⟩, ?_⟩
  · unfold Channel.zeroLength primed
    simp only [hv.count]
    rw [decide_eq_false hv.words]
    rfl
  · unfold Channel.launch Channel.latch primed chan
    simp [hv.count, hv.mode, halive]

end Sequential.Front

open Sequential (Front)

/-- Fetch is started at its home window. -/
theorem Core.pokes_fetch {F : Front} {i : Nat} (hv : F.Valid B.v i) {d : Dma} (mem : Mem) (dev : δ)
    (cycle : Nat) (hd : d.erase = d) (hbusy : (d.ch F.fetch).busy = false)
    (halive : (d.ch F.fetch).wedged = false) (entry : Word) :
    (Core.mk d mem dev cycle).pokes B (F.fetchWrites entry) =
      .ok ⟨d.setCh F.fetch (F.chan entry F.home F.words true), mem, dev, cycle⟩ := by
  have hch : (d.ch F.fetch).erase = d.ch F.fetch := congrArg (fun d : Dma => d.ch F.fetch) hd
  have hstores : (d.ch F.fetch).stores B.v [(offReadAddr, entry), (offWriteAddr, F.home),
      (offTransCount, F.words)] = F.primed entry (d.ch F.fetch) := rfl
  have hplain := pokes_chan mem dev cycle hd hv.fetch_lt
    [(offReadAddr, entry), (offWriteAddr, F.home), (offTransCount, F.words)] (d.ch F.fetch) hch
    (by simp only [List.map_cons, List.map_nil]; decide)
  rw [d.setCh_self, hstores] at hplain
  obtain ⟨harmed, hlaunch⟩ := Sequential.Front.launch_primed hv entry hbusy halive
  unfold Front.fetchWrites
  rw [pokes_append, hplain]
  simp only [Except.bind]
  rw [pokes_start hd hv.fetch_lt hv.copies.nonzero harmed, hlaunch]

/-- What setup leaves in the rewinding channel and in memory is what it needs. -/
theorem Sequential.State.rewinds_of_aimed {F : Front} {S : State δ}
    (haux : S.regs.ch F.aux = F.aimed B.v c) (halive : c.wedged = false)
    (hin : S.mem.inSRAM F.scratch .word = true) (hal : F.scratch.toNat % 4 = 0)
    (hload : S.mem.sram.load (F.scratch.toNat - sramBase) .word = F.home) : S.Rewinds B F := by
  refine ⟨?_, ?_, ?_, ?_, ?_, hin, hal, hload⟩
  · rw [haux]; rfl
  · rw [haux]; rfl
  · rw [haux]; rfl
  · rw [haux]; rfl
  · rw [haux]; exact halive

end DmaCpu.Emu
