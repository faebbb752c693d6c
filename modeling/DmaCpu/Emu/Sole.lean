-- SUMMARY: A machine with one running channel: every step is one or more words of that channel.
import DmaCpu.Emu.Core
import DmaCpu.Lib.Iter

/-!
# A sole running channel

While one unpaced channel runs and every other is idle, the scheduler has nothing
to decide: a step moves one word of that channel, or a burst of several, and the
burst is those words one after the other.
-/
namespace DmaCpu.Emu

open Function

variable {δ : Type} (B : Board δ) (v : Variant) {p : Channel → Bool} {d : Dma}

/-! ## Requests change nothing but the pace -/

namespace Dma

theorem erase_mapCh (d : Dma) {f : Channel → Channel}
    (hf : ∀ c, (f c).erase = c.erase) : (mapCh v d p f).erase = d.erase := by
  unfold mapCh erase
  congr 1
  funext i
  rw [apply_ite Channel.erase, hf, ite_self]

theorem erase_levelDreq (d : Dma) (p : Channel → Bool) : (d.levelDreq v p).erase = d.erase :=
  erase_mapCh v d fun _ => rfl

theorem pulses (d : Dma) (i n : Nat) :
    ((pulseTimer v i)^[n] d).erase = d.erase ∧ ((pulseTimer v i)^[n] d).timers = d.timers := by
  induction n generalizing d with
  | zero => exact ⟨rfl, rfl⟩
  | succ n ih =>
    obtain ⟨herase, htimers⟩ := ih (pulseTimer v i d)
    exact ⟨herase.trans (erase_mapCh v d fun _ => rfl), htimers⟩

theorem erase_fireTimer (d : Dma) (now i : Nat) : (fireTimer v now d i).erase = d.erase := by
  unfold fireTimer
  simp only
  split
  · generalize (d.timers i).acc + (d.timers i).x * (now - (d.timers i).last) = total
    obtain ⟨herase, htimers⟩ := pulses v d i (total / (d.timers i).y)
    rw [← herase]
    unfold erase
    congr 1
    funext j
    by_cases h : j = i
    · subst h; simp only [update_self, htimers]
    · simp [update_of_ne h]
  · rfl

theorem erase_fireDue (d : Dma) (now : Nat) : (d.fireDue v now).erase = d.erase := by
  unfold fireDue
  generalize List.range 4 = l
  induction l generalizing d with
  | nil => rfl
  | cons i l ih => rw [List.foldl_cons, ih, erase_fireTimer]

end Dma

/-- The level requests, in the order in which `step` serves them. -/
inductive Line where
  | xip
  | spiTx
  | uartTx
  | uartRx
  | spiRx
  | hstx
  | pio (sm : Nat)
deriving DecidableEq

def lines : List Line :=
  [.xip, .spiTx, .uartTx, .uartRx, .spiRx, .hstx, .pio 0, .pio 1, .pio 2, .pio 3]

/-- The channels on a line. -/
def Line.on (v : Variant) : Line → Channel → Bool
  | xip => Dma.listens v v.dreqXIPStream
  | spiTx => Dma.listens v v.dreqSPI0TX
  | uartTx => Dma.listens v v.dreqUART0TX
  | uartRx => Dma.listens v v.dreqUART0RX
  | spiRx => Dma.listens v v.dreqSPI0RX
  | hstx => Dma.listens v v.dreqHSTX
  | pio sm => Dma.listensPio v sm

theorem Line.on_erase (v : Variant) (l : Line) (c : Channel) : l.on v c.erase = l.on v c := by
  cases l <;> rfl

namespace Machine

variable (m : Machine δ)

/-- A line is up at a cycle. -/
def level (cycle : Nat) : Line → Bool
  | .xip => 0 < B.streamCtr m.dev
  | .spiTx => B.spiTxDma m.dev
  | .uartTx => B.txPace m.dev == 0 || decide (B.txPace m.dev ≤ cycle - B.lastTX m.dev)
  | .uartRx => B.consoleIn m.dev
  | .spiRx => B.spiRx m.dev
  | .hstx => B.hstxPace m.dev == 0 || decide (m.hstxNext ≤ cycle)
  | .pio sm => (B.pioCtrl m.dev).getLsbD sm && decide (m.pioNext sm ≤ cycle)

/-- A line that has been served gets its next slot. -/
def rearm : Line → Machine δ
  | .hstx => { m with hstxNext := m.cycle + B.hstxPace m.dev }
  | .pio sm =>
    let div := (B.pioClkdiv m.dev sm >>> 16).toNat
    { m with pioNext := Function.update m.pioNext sm (m.cycle + (if div = 0 then 1 else div) * 64) }
  | _ => m

def service (l : Line) : Machine δ :=
  if m.heard B (l.on B.v) && m.level B m.cycle l then
    { m.rearm B l with dma := m.dma.levelDreq B.v (l.on B.v) }
  else m

/-- The pulses that are due at the next cycle. -/
def pulsed : Dma :=
  if m.dma.timersActive ≠ [] ∧ m.dma.timerNextMin ≤ m.cycle + 1 then
    m.dma.fireDue B.v (m.cycle + 1) else m.dma

theorem erase_pulsed : (m.pulsed B).erase = m.dma.erase := by
  unfold pulsed
  split
  · exact Dma.erase_fireDue B.v m.dma _
  · rfl

theorem levelDreq_fed (h : m.dma.anyStarved B.v p = false) :
    m.dma.levelDreq B.v p = m.dma := by
  unfold Dma.levelDreq Dma.mapCh
  congr 1
  funext i
  split
  next hi => exact absurd hi.2 (List.any_eq_false.1 h i (List.mem_range.2 hi.1))
  next => rfl

theorem not_starved_of_unheard (h : m.heard B p = false) :
    m.dma.anyStarved B.v p = false := by
  refine List.any_eq_false.2 fun i hi => ?_
  simp [List.any_eq_false.1 h i hi]

/-- A line without slots need not be heard. -/
theorem service_eq_grant {l : Line} (hl : m.rearm B l = m) :
    m.service B l = m.grant B (l.on B.v) (m.level B m.cycle l) := by
  unfold grant service
  rw [hl]
  cases hheard : m.heard B (l.on B.v) with
  | false =>
    rw [m.levelDreq_fed B (m.not_starved_of_unheard B hheard)]
    exact (ite_self m).symm
  | true => rfl

theorem serve_eq : m.serve B =
    lines.foldl (service B) { m with cycle := m.cycle + 1, dma := m.pulsed B } := by
  have hpulsed : (if m.dma.timersActive ≠ [] ∧ m.dma.timerNextMin ≤ m.cycle + 1 then
      { { m with cycle := m.cycle + 1 } with dma := m.dma.fireDue B.v (m.cycle + 1) }
      else { m with cycle := m.cycle + 1 }) = { m with cycle := m.cycle + 1, dma := m.pulsed B } := by
    unfold pulsed
    split <;> rfl
  have hpio : ∀ (m : Machine δ) (sm : Nat), m.service B (.pio sm) = servePio B m sm := by
    intro m sm
    unfold servePio service level
    rw [← Bool.and_assoc]
    rfl
  unfold serve
  simp only [hpulsed, lines, List.foldl_cons, List.foldl_nil, hpio, service_eq_grant B _ (l := .xip) rfl,
    service_eq_grant B _ (l := .spiTx) rfl, service_eq_grant B _ (l := .uartTx) rfl,
    service_eq_grant B _ (l := .uartRx) rfl, service_eq_grant B _ (l := .spiRx) rfl]
  rfl

/-- What holds after the pulses and is kept by every service holds after `serve`. -/
theorem serve_rec {P : Machine δ → Prop} (h : P { m with cycle := m.cycle + 1, dma := m.pulsed B })
    (hP : ∀ k, ∀ l ∈ lines, P k → P (k.service B l)) : P (m.serve B) := by
  rw [serve_eq]
  exact List.foldlRecOn lines (service B) h fun k hk l hl => hP k l hl hk

theorem core_service (l : Line) : (m.service B l).core = m.core := by
  unfold service
  split
  · cases l <;> simp only [core, rearm, Dma.erase_levelDreq]
  · rfl

/-- Serving the requests takes a cycle and nothing else. -/
theorem core_serve : (m.serve B).core = { m.core with cycle := m.cycle + 1 } :=
  serve_rec B m (P := fun k => k.core = { m.core with cycle := m.cycle + 1 })
    (by simp only [core, erase_pulsed]) fun k l _ hk => (k.core_service B l).trans hk

end Machine

/-! ## The arbiter -/

/-- Channel `i` runs, unpaced, and no other channel does. -/
structure Dma.Sole (d : Dma) (i : Nat) : Prop where
  lt : i < v.nChannels
  busy : (d.ch i).busy = true
  enabled : (d.ch i).enabled = true
  unpaced : (d.ch i).treq v = treqPermanent
  alive : (d.ch i).wedged = false
  others : ∀ j, j ≠ i → (d.ch j).busy = false

theorem Dma.Sole.erase {i : Nat} (h : d.erase.Sole v i) : d.Sole v i where
  lt := h.lt
  busy := h.busy
  enabled := h.enabled
  unpaced := h.unpaced
  alive := h.alive
  others := h.others

variable {i n : Nat}

theorem filter_range_eq_singleton {p : Nat → Bool} (hi : i < n) (hp : p i = true)
    (hne : ∀ j, j ≠ i → p j = false) : (List.range n).filter p = [i] := by
  induction n with
  | zero => omega
  | succ n ih =>
    rw [List.range_succ, List.filter_append]
    by_cases h : i = n
    · subst h
      have hnil : (List.range i).filter p = [] := by
        rw [List.filter_eq_nil_iff]
        intro j hj
        rw [hne j (by have := List.mem_range.1 hj; omega)]
        decide
      simp [hnil, hp]
    · rw [ih (by omega), List.filter_cons_of_neg (by rw [hne n (by omega)]; decide)]
      rfl

theorem Dma.Sole.ready (h : d.Sole v i) : d.ready v = [i] := by
  apply filter_range_eq_singleton h.lt
  · simp [Channel.runnable, h.alive, h.busy, h.enabled, h.unpaced]
  · intro j hj
    simp [Channel.runnable, h.others j hj]

theorem Machine.arbiter_singleton (hp : Nat → Bool) (rrLast : Nat) :
    arbiter [i] hp rrLast = some i := by
  have hpick : (if ([i].filter hp).isEmpty then [i] else [i].filter hp) = [i] := by
    by_cases h : hp i <;> simp [h]
  unfold arbiter
  simp only [hpick]
  by_cases h : rrLast < i
  · simp [h]
  · simp [h]

/-! ## Words in a row -/

/-- A cycle in which channel `i` moves a word. -/
def Core.beat (i : Nat) (c : Core δ) : Except Fault (Core δ) :=
  ({ c with cycle := c.cycle + 1 } : Core δ).move B i

namespace Channel

/-- The channel passes its data on and counts them, and does nothing else. -/
structure Streams (c : Channel) (w : Width) : Prop where
  size : ctrlDataSize c.ctrl = some w
  plain : c.sniffEn v = false
  ringR : c.ringMaskR v = 0
  ringW : c.ringMaskW v = 0
  counts : c.mode ≠ transModeEndless

/-- Strides add up. -/
theorem stride_succ (x s : Word) (k : Nat) :
    x + BitVec.ofNat 32 1 * s + BitVec.ofNat 32 k * s = x + BitVec.ofNat 32 (k + 1) * s := by
  rw [BitVec.ofNat_add, BitVec.add_mul, BitVec.add_comm (BitVec.ofNat 32 k * s), BitVec.add_assoc]

theorem onward_onward (c : Channel) (k : Nat) : (c.onward v 1).onward v k = c.onward v (k + 1) := by
  unfold onward
  congr 1
  · exact stride_succ c.readAddr (c.strideR v) k
  · exact stride_succ c.writeAddr (c.strideW v) k
  · bv_omega

end Channel

variable {w : Width}

namespace Dma

theorem settle_streams {writeAddr : Word} (h : (d.ch i).Streams v w)
    (hrem : (d.ch i).remaining ≠ 0) (hown : ownCount i writeAddr = false) :
    d.settle v i writeAddr = (d.setCh i ((d.ch i).onward v 1)).conclude v i := by
  have hadv : { advance v (d.ch i) with remaining := (d.ch i).remaining - 1 } =
      (d.ch i).onward v 1 := by
    unfold advance Channel.onward
    simp only [h.ringR, h.ringW, advanceAddr, if_true, BitVec.one_mul]
    congr 1
    · split
      · rfl
      next hz => rw [not_not.1 hz]; simp
    · split
      · rfl
      next hz => rw [not_not.1 hz]; simp
  have hcounts : (advance v (d.ch i)).mode ≠ transModeEndless := h.counts
  have hleft : (advance v (d.ch i)).remaining = (d.ch i).remaining := rfl
  unfold settle
  simp only [if_neg hcounts, hleft, if_pos hrem, hown, Bool.and_false, hadv]
  rfl

end Dma

theorem Variant.nChannels_le : v.nChannels ≤ 16 := by cases v <;> decide

variable {a : Word}

theorem ownCount_of_not_inDMA (hi : i < 16) (h : inDMA a = false) : Dma.ownCount i a = false := by
  rw [← Bool.not_eq_true, inDMA_iff] at h
  unfold Dma.ownCount
  rw [Bool.and_eq_false_iff]
  rw [decide_eq_false_iff_not]
  simp only [chanRegAddr, dmaBase, chanStride, BitVec.toNat_sub, BitVec.toNat_ofNat] at *
  omega

variable {hi k lo : Nat} {stride : Word}

namespace Core

variable {B}

/-- A word between two places in memory. -/
theorem beat_of_streams {c : Core δ} {x : Word} {mem' : Mem} (hi : i < 16)
    (hs : (c.dma.ch i).Streams B.v w) (hrem : (c.dma.ch i).remaining ≠ 0)
    (hread : busRead B (c.dma.regRead B.v) c.mem c.dev (c.cycle + 1) (c.dma.ch i).readAddr w =
      .ok (x, c.dev))
    (hal : (c.dma.ch i).writeAddr.toNat % w.bytes = 0) (hdma : inDMA (c.dma.ch i).writeAddr = false)
    (hwrite : busWrite B c.mem c.dev (c.cycle + 1) (c.dma.ch i).writeAddr
      ((c.dma.ch i).swap B.v x w) w = .ok (mem', c.dev)) :
    c.beat B i = .ok { c with
        dma := (c.dma.setCh i ((c.dma.ch i).onward B.v 1)).conclude B.v i
        mem := mem'
        cycle := c.cycle + 1 } := by
  unfold beat move get
  simp only [hs.size, hread, Except.map, bind, Except.bind]
  unfold put
  rw [if_neg (by omega), if_neg (by rw [hdma]; decide)]
  simp only [hwrite, Except.map, pure, Except.pure]
  unfold Dma.deliver
  simp only [hs.plain, Bool.false_eq_true, if_false]
  rw [Dma.settle_streams B.v hs hrem (ownCount_of_not_inDMA hi hdma)]

/-- The next `k` places of a pointer lie in `[lo, hi)`. -/
def InRoom (lo hi : Nat) (a stride : Word) (w : Width) (k : Nat) : Prop :=
  ∀ j < k, lo ≤ (a + BitVec.ofNat 32 j * stride).toNat ∧
    (a + BitVec.ofNat 32 j * stride).toNat + w.bytes ≤ hi ∧
    (a + BitVec.ofNat 32 j * stride).toNat % w.bytes = 0

theorem InRoom.head (h : InRoom lo hi a stride w (k + 1)) :
    lo ≤ a.toNat ∧ a.toNat + w.bytes ≤ hi ∧ a.toNat % w.bytes = 0 := by
  have := h 0 (by omega)
  simpa using this

theorem InRoom.tail (h : InRoom lo hi a stride w (k + 1)) :
    InRoom lo hi (a + BitVec.ofNat 32 1 * stride) stride w k := by
  intro j hj
  rw [Channel.stride_succ]
  exact h (j + 1) (by omega)

theorem toNat_sub_lo (h : lo ≤ a.toNat) : (a - BitVec.ofNat 32 lo).toNat = a.toNat - lo := by
  rw [BitVec.toNat_sub, BitVec.toNat_ofNat]
  omega

/-- The words of a burst are the words of the channel, one cycle each. -/
theorem beats_eq_burstLoop {mem₀ : Mem} {dev : δ} {rb wb : Mem.Region} {lo' hi' : Nat} {fR : Bool}
    (hi16 : i < 16) (hr : Backs B mem₀ dev fR rb lo hi) (hw : Backs B mem₀ dev true wb lo' hi')
    (k : Nat) : ∀ c : Core δ, mem₀.Alike c.mem → c.dev = dev → (c.dma.ch i).Streams B.v w →
      InRoom lo hi (c.dma.ch i).readAddr ((c.dma.ch i).strideR B.v) w (k + 1) →
      InRoom lo' hi' (c.dma.ch i).writeAddr ((c.dma.ch i).strideW B.v) w (k + 1) →
      k + 1 ≤ (c.dma.ch i).remaining.toNat → iter (Core.beat B i) (k + 1) c = .ok { c with
          dma := (c.dma.setCh i ((c.dma.ch i).onward B.v (k + 1))).conclude B.v i
          mem := Machine.burstLoop w ((c.dma.ch i).bswap B.v) ((c.dma.ch i).strideR B.v)
            ((c.dma.ch i).strideW B.v) rb wb (k + 1) c.mem
            ((c.dma.ch i).readAddr - BitVec.ofNat 32 lo)
            ((c.dma.ch i).writeAddr - BitVec.ofNat 32 lo')
          cycle := c.cycle + (k + 1) } := by
  -- one word, in the form in which the loop takes it
  have hword : ∀ (c : Core δ) (n : Nat), mem₀.Alike c.mem → c.dev = dev →
      (c.dma.ch i).Streams B.v w →
      InRoom lo hi (c.dma.ch i).readAddr ((c.dma.ch i).strideR B.v) w (n + 1) →
      InRoom lo' hi' (c.dma.ch i).writeAddr ((c.dma.ch i).strideW B.v) w (n + 1) →
      (c.dma.ch i).remaining ≠ 0 →
      c.beat B i = .ok
        { c with
          dma := (c.dma.setCh i ((c.dma.ch i).onward B.v 1)).conclude B.v i
          mem := c.mem.store wb ((c.dma.ch i).writeAddr - BitVec.ofNat 32 lo').toNat
            ((c.dma.ch i).swap B.v ((c.mem.region rb).load
              ((c.dma.ch i).readAddr - BitVec.ofNat 32 lo).toNat w) w) w
          cycle := c.cycle + 1 } := by
    intro c n hlike hdev hs hroomR hroomW hrem
    obtain ⟨hlo, hhi, hal⟩ := hroomR.head
    obtain ⟨hlo', hhi', hal'⟩ := hroomW.head
    subst hdev
    obtain ⟨hdma, hwrite⟩ := hw.write rfl c.mem (c.cycle + 1) (c.dma.ch i).writeAddr
      ((c.dma.ch i).swap B.v ((c.mem.region rb).load
        ((c.dma.ch i).readAddr.toNat - lo) w) w) w hlike hlo' hhi'
    rw [toNat_sub_lo hlo, toNat_sub_lo hlo']
    exact beat_of_streams hi16 hs hrem (hr.read _ _ _ _ w hlike hlo hhi hal) hal' hdma hwrite
  induction k with
  | zero =>
    intro c hlike hdev hs hroomR hroomW hrem
    rw [iter_one, hword c 0 hlike hdev hs hroomR hroomW (by intro h; simp [h] at hrem)]
    rfl
  | succ k ih =>
    intro c hlike hdev hs hroomR hroomW hrem
    have hpred : ((c.dma.ch i).remaining - 1).toNat = (c.dma.ch i).remaining.toNat - 1 := by
      bv_omega
    have hmore : (c.dma.setCh i ((c.dma.ch i).onward B.v 1)).conclude B.v i =
        c.dma.setCh i ((c.dma.ch i).onward B.v 1) := by
      unfold Dma.conclude
      rw [if_neg]
      intro hdone
      rw [Dma.setCh_ch, update_self] at hdone
      have hz : (c.dma.ch i).remaining - 1 = 0 := hdone.1
      rw [hz] at hpred
      simp at hpred
      omega
    rw [iter_succ, hword c (k + 1) hlike hdev hs hroomR hroomW (by intro h; simp [h] at hrem), hmore]
    simp only [Except.bind]
    rw [ih]
    · have hstep : ∀ x lo s : Word, x + BitVec.ofNat 32 1 * s - lo = x - lo + s := by
        intro x lo s
        bv_omega
      simp only [Dma.setCh_ch, update_self, Dma.setCh_setCh, Channel.onward_onward]
      congr 2
      · exact congrArg₂ (Machine.burstLoop w _ _ _ rb wb (k + 1) _) (hstep ..) (hstep ..)
      · omega
    · exact hlike.store ..
    · exact hdev
    · rw [Dma.setCh_ch, update_self]
      exact ⟨hs.size, hs.plain, hs.ringR, hs.ringW, hs.counts⟩
    · rw [Dma.setCh_ch, update_self]
      exact hroomR.tail
    · rw [Dma.setCh_ch, update_self]
      exact hroomW.tail
    · rw [Dma.setCh_ch, update_self]
      change k + 1 ≤ ((c.dma.ch i).remaining - 1).toNat
      omega

theorem toNat_forward {j : Nat} (h : a.toNat + j * n < 2 ^ 32) :
    (a + BitVec.ofNat 32 j * BitVec.ofNat 32 n).toNat = a.toNat + j * n := by
  rw [← BitVec.ofNat_mul, BitVec.toNat_add, BitVec.toNat_ofNat, Nat.add_mod_mod,
    Nat.mod_eq_of_lt h]

theorem toNat_backward {j : Nat} (h : j * n ≤ a.toNat) :
    (a + BitVec.ofNat 32 j * -BitVec.ofNat 32 n).toNat = a.toNat - j * n := by
  rw [BitVec.mul_neg, ← BitVec.ofNat_mul, ← BitVec.sub_eq_add_neg, toNat_sub_lo h]

/-- The burst is cut to what its windows have room for. -/
theorem inRoom_of_le_room (hlo : lo ≤ a.toNat) (hhi : a.toNat + w.bytes ≤ hi)
    (hal : a.toNat % w.bytes = 0) (htop : hi ≤ 2 ^ 32)
    (hstride : stride = 0 ∨ stride = BitVec.ofNat 32 w.bytes ∨ stride = -BitVec.ofNat 32 w.bytes)
    (hk : k ≤ Machine.room stride (BitVec.ofNat 32 w.bytes) a.toNat lo hi n) :
    InRoom lo hi a stride w k := by
  intro j hj
  have hbytes : (BitVec.ofNat 32 w.bytes).toNat = w.bytes := by cases w <;> decide
  have hneg : -(BitVec.ofNat 32 w.bytes) ≠ 0 := by cases w <;> decide
  unfold Machine.room at hk
  rw [hbytes] at hk
  by_cases hfwd : stride = BitVec.ofNat 32 w.bytes
  · rw [if_pos hfwd] at hk
    have hroom : (j + 1) * w.bytes ≤ hi - a.toNat :=
      (Nat.le_div_iff_mul_le w.bytes_pos).1 (by omega)
    rw [Nat.add_mul] at hroom
    rw [hfwd, toNat_forward (by have := w.bytes_pos; omega), Nat.add_mul_mod_self_right]
    omega
  · rw [if_neg hfwd] at hk
    rcases hstride with rfl | rfl | rfl
    · simp only [BitVec.ofNat_eq_ofNat, BitVec.mul_zero, BitVec.add_zero]
      omega
    · exact absurd rfl hfwd
    · rw [if_neg hneg] at hk
      have hroom : j * w.bytes ≤ a.toNat - lo := (Nat.le_div_iff_mul_le w.bytes_pos).1 (by omega)
      rw [toNat_backward (by omega)]
      refine ⟨by omega, by omega, ?_⟩
      have hsplit : a.toNat = a.toNat - j * w.bytes + j * w.bytes := by omega
      rw [hsplit, Nat.add_mul_mod_self_right] at hal
      exact hal

end Core

namespace Machine

variable (m : Machine δ)

theorem foldl_min_le (l : List Nat) (k : Nat) : l.foldl min k ≤ k := by
  induction l generalizing k with
  | nil => exact Nat.le_refl k
  | cons a l ih => exact Nat.le_trans (ih _) (Nat.min_le_left ..)

/-- A channel the burst path is open to only streams. -/
theorem streams_of_burstLen (h : 1 < m.burstLen B i) :
    (∃ w, (m.dma.ch i).Streams B.v w) ∧ m.burstLen B i ≤ (m.dma.ch i).remaining.toNat := by
  unfold burstLen at h ⊢
  simp only at h ⊢
  split at h
  next => omega
  next hopen =>
    rw [if_neg hopen]
    simp only [not_or] at hopen
    obtain ⟨-, hmode, hsniff, hringR, hringW, hsize, -⟩ := hopen
    obtain ⟨w, hw⟩ := Option.ne_none_iff_exists'.1 hsize
    refine ⟨⟨w, hw, by simpa using hsniff, not_not.1 hringR, not_not.1 hringW, hmode⟩, ?_⟩
    refine Nat.le_trans (Nat.min_le_left ..) (Nat.le_trans (foldl_min_le ..) ?_)
    split
    · exact Nat.min_le_right ..
    · exact Nat.le_refl _

theorem strideR_cases (c : Channel) :
    c.strideR v = 0 ∨ c.strideR v = c.sizeBytes ∨ c.strideR v = -c.sizeBytes := by
  unfold Channel.strideR
  split
  · split <;> simp
  · simp

theorem strideW_cases (c : Channel) :
    c.strideW v = 0 ∨ c.strideW v = c.sizeBytes ∨ c.strideW v = -c.sizeBytes := by
  unfold Channel.strideW
  split
  · split <;> simp
  · simp

theorem room_le (stride size : Word) (a lo hi k : Nat) : room stride size a lo hi k ≤ k := by
  unfold room
  split
  · exact Nat.min_le_right ..
  · split
    · exact Nat.le_refl _
    · exact Nat.min_le_right ..

theorem move_eq_beat {c : Core δ} (hm : m.core = { c with cycle := c.cycle + 1 }) :
    m.core.move B i = iter (Core.beat B i) 1 c := by
  rw [iter_one, hm]
  rfl

/-- A burst is some of the channel's next words. -/
theorem burst_core {c : Core δ} (hm : m.core = { c with cycle := c.cycle + 1 })
    (hsole : m.dma.Sole B.v i) (hs : (m.dma.ch i).Streams B.v w)
    (hk : k ≤ (m.dma.ch i).remaining.toNat) :
    ∃ n, 1 ≤ n ∧ (n = 1 ∨ n ≤ (m.dma.ch i).remaining.toNat) ∧
      (m.burst B i k).map core = iter (Core.beat B i) n c := by
  have hone : (m.transfer B i).map core = iter (Core.beat B i) 1 c :=
    (m.transfer_core B _).trans (m.move_eq_beat B hm)
  have hi16 : i < 16 := Nat.lt_of_lt_of_le hsole.lt B.v.nChannels_le
  have hsize : (m.dma.ch i).sizeBytes = BitVec.ofNat 32 w.bytes := by
    unfold Channel.sizeBytes
    rw [hs.size]
  have hch : c.dma.ch i = (m.dma.ch i).erase := (congrArg (fun c : Core δ => c.dma.ch i) hm).symm
  unfold burst
  simp only [hs.size]
  split
  next rb ro wb wo hread hwrite =>
    obtain ⟨hbr, hlo, hhi, hal, rfl⟩ := m.window_backs B hread
    obtain ⟨hbw, hlo', hhi', hal', rfl⟩ := m.window_backs B hwrite
    generalize hkR : room ((m.dma.ch i).strideR B.v) (m.dma.ch i).sizeBytes
      (m.dma.ch i).readAddr.toNat (m.resolveWin B (m.dma.ch i).readAddr false).lo
      (m.resolveWin B (m.dma.ch i).readAddr false).hi k = kR
    generalize hkW : room ((m.dma.ch i).strideW B.v) (m.dma.ch i).sizeBytes
      (m.dma.ch i).writeAddr.toNat (m.resolveWin B (m.dma.ch i).writeAddr true).lo
      (m.resolveWin B (m.dma.ch i).writeAddr true).hi kR = n
    have hkRk : kR ≤ k := hkR ▸ room_le ..
    have hnkR : n ≤ kR := hkW ▸ room_le ..
    split
    next => exact ⟨1, Nat.le_refl 1, .inl rfl, hone⟩
    next hn =>
      refine ⟨n, by omega, .inr (by omega), ?_⟩
      obtain ⟨n, rfl⟩ := Nat.exists_eq_add_of_lt (show 0 < n by omega)
      rw [Nat.zero_add]
      rw [Core.beats_eq_burstLoop (w := w) hi16 hbr hbw n c]
      · have hoff : ∀ {a : Word} {lo : Nat}, lo ≤ a.toNat →
            BitVec.ofNat 32 (a.toNat - lo) = a - BitVec.ofNat 32 lo := fun h => by
          rw [← Core.toNat_sub_lo h, BitVec.ofNat_toNat, BitVec.setWidth_eq]
        have hcycle : m.cycle = c.cycle + 1 := congrArg Core.cycle hm
        simp only [Except.map, core, hoff hlo, hoff hlo', Dma.erase_conclude, Dma.erase_setCh]
        rw [← show m.mem = c.mem from congrArg Core.mem hm,
          ← show m.dev = c.dev from congrArg Core.dev hm,
          ← show m.dma.erase = c.dma from congrArg Core.dma hm]
        congr 2
        omega
      · rw [show c.mem = m.mem from (congrArg Core.mem hm).symm]
        exact .refl _
      · exact (congrArg Core.dev hm).symm
      · rw [hch]
        exact ⟨hs.size, hs.plain, hs.ringR, hs.ringW, hs.counts⟩
      · rw [hch]
        refine Core.inRoom_of_le_room hlo hhi hal hbr.top ?_ (n := k) ?_
        · exact hsize ▸ strideR_cases B.v (m.dma.ch i)
        · rw [← hsize]
          exact hkR.symm ▸ (by omega : n + 1 ≤ kR)
      · rw [hch]
        refine Core.inRoom_of_le_room hlo' hhi' hal' hbw.top ?_ (n := kR) ?_
        · exact hsize ▸ strideW_cases B.v (m.dma.ch i)
        · rw [← hsize]
          exact hkW.symm ▸ (by omega : n + 1 ≤ 0 + n + 1)
      · rw [hch]
        change n + 1 ≤ (m.dma.ch i).remaining.toNat
        omega
  next => exact ⟨1, Nat.le_refl 1, .inl rfl, hone⟩

/-! ## Steps -/

/-- A step without its flag. -/
def next (m : Machine δ) : Except Fault (Machine δ) := (m.step B).map Prod.snd

/-- While one channel runs, a step is one or more of its words. -/
theorem next_core (hsole : m.core.dma.Sole B.v i) :
    ∃ n, 1 ≤ n ∧ (n = 1 ∨ burstMin ≤ (m.core.dma.ch i).remaining.toNat ∧
        n ≤ (m.core.dma.ch i).remaining.toNat) ∧
      (m.next B).map core = iter (Core.beat B i) n m.core := by
  generalize hm₁ : ({ m.serve B with rrLast := i } : Machine δ) = m₁
  have hcore : m₁.core = { m.core with cycle := m.core.cycle + 1 } := by
    rw [← hm₁]
    exact m.core_serve B
  have hdma : m₁.dma.erase = m.core.dma := congrArg Core.dma hcore
  have hsole₁ : m₁.dma.Sole B.v i := Dma.Sole.erase B.v (hdma ▸ hsole)
  have hleft : (m₁.dma.ch i).remaining = (m.core.dma.ch i).remaining := by
    rw [← hdma]
    rfl
  have hready : (m.serve B).dma.ready B.v = [i] := by
    have : (m.serve B).dma = m₁.dma := by rw [← hm₁]
    rw [this]
    exact hsole₁.ready
  have hstep : m.next B = m₁.transfer B i ∨
      burstMin ≤ (m₁.dma.ch i).remaining.toNat ∧ 1 < m₁.burstLen B i ∧
        m.next B = m₁.burst B i (m₁.burstLen B i) := by
    unfold next step stepWith
    simp only [hready, arbiter_singleton, hm₁]
    split
    next hb =>
      refine .inr ⟨?_, hb.2.2.2, ?_⟩
      · rw [← hm₁]
        exact hb.2.1
      cases m₁.burst B i (m₁.burstLen B i) <;> rfl
    next =>
      left
      cases m₁.transfer B i <;> rfl
  rcases hstep with hstep | ⟨hmin, hlong, hstep⟩
  · rw [hstep]
    refine ⟨1, Nat.le_refl 1, .inl rfl, ?_⟩
    exact (m₁.transfer_core B _).trans (m₁.move_eq_beat B hcore)
  · rw [hstep, ← hleft]
    obtain ⟨⟨w, hs⟩, hlen⟩ := m₁.streams_of_burstLen B hlong
    obtain ⟨n, hn, hle, hburst⟩ := m₁.burst_core B hcore hsole₁ hs hlen
    exact ⟨n, hn, hle.imp_right fun h => ⟨hmin, h⟩, hburst⟩

/-- `n` words of one channel, of which the machine makes at most `n` steps. -/
theorem run_beats (n : Nat) : ∀ m : Machine δ,
    (∀ j < n, ∀ c, iter (Core.beat B i) j m.core = .ok c →
      c.dma.Sole B.v i ∧ (c.dma.ch i).remaining.toNat = n - j) →
    ∃ k, k ≤ n ∧ (0 < n → 0 < k) ∧
      (iter (next B) k m).map core = iter (Core.beat B i) n m.core := by
  induction n using Nat.strongRecOn with
  | ind n ih =>
    intro m hrun
    rcases Nat.eq_zero_or_pos n with rfl | hpos
    · exact ⟨0, Nat.le_refl 0, id, rfl⟩
    obtain ⟨hsole, hrem⟩ := hrun 0 hpos m.core rfl
    obtain ⟨j, hj, hjn, hstep⟩ := m.next_core B hsole
    cases hnext : m.next B with
    | error e =>
      -- the failing word is one of the first `j`
      rw [hnext] at hstep
      refine ⟨1, by omega, fun _ => Nat.one_pos, ?_⟩
      have hsplit : n = j + (n - j) := by omega
      rw [iter_one, hnext, hsplit, iter_add_of_error hstep.symm]
      rfl
    | ok m' =>
      rw [hnext] at hstep
      have hm' : iter (Core.beat B i) j m.core = .ok m'.core := hstep.symm
      obtain ⟨k, hk, hkpos, hrest⟩ := ih (n - j) (by omega) m' (by
        intro l hl c hc
        obtain ⟨hs, hr⟩ := hrun (j + l) (by omega) c ((iter_add_of_ok hm').trans hc)
        exact ⟨hs, by omega⟩)
      refine ⟨k + 1, by omega, fun _ => Nat.succ_pos k, ?_⟩
      have hsplit : n = j + (n - j) := by omega
      rw [iter_succ, hnext, hsplit, iter_add_of_ok hm', ← hrest]
      rfl

end Machine

/-! ## Putting turns together -/

/-- Every machine that stands at `c` comes to `r` in one or more steps. -/
def Core.Leads (c : Core δ) (r : Except Fault (Core δ)) : Prop :=
  ∀ m : Machine δ, m.core = c → ∃ k, 0 < k ∧ (iter (Machine.next B) k m).map Machine.core = r

variable {r : Except Fault (Core δ)}

namespace Core.Leads

variable {B} {c : Core δ}

/-- One word of a channel with little to do. -/
theorem beat (hsole : c.dma.Sole B.v i)
    (hshort : (c.dma.ch i).remaining.toNat < Machine.burstMin) : c.Leads B (c.beat B i) := by
  rintro m rfl
  obtain ⟨n, -, hn, hstep⟩ := m.next_core B hsole
  obtain rfl : n = 1 := by omega
  exact ⟨1, Nat.one_pos, by rw [iter_one, hstep, iter_one]⟩

/-- All words of a channel. -/
theorem beats (hn : 0 < n) (hrun : ∀ j < n, ∀ c', iter (Core.beat B i) j c = .ok c' →
      c'.dma.Sole B.v i ∧ (c'.dma.ch i).remaining.toNat = n - j) :
    c.Leads B (iter (Core.beat B i) n c) := by
  rintro m rfl
  obtain ⟨k, -, hk, hsteps⟩ := Machine.run_beats B n m hrun
  exact ⟨k, hk hn, hsteps⟩

/-- One turn after another; the first fault ends it. -/
theorem bind {g : Core δ → Except Fault (Core δ)} (h : c.Leads B r)
    (hg : ∀ c', r = .ok c' → c'.Leads B (g c')) : c.Leads B (r.bind g) := by
  intro m hm
  obtain ⟨k, hk, hsteps⟩ := h m hm
  cases hr : r with
  | error f => exact ⟨k, hk, by rw [hsteps, hr]; rfl⟩
  | ok c' =>
    rw [hr] at hsteps
    cases hiter : iter (Machine.next B) k m with
    | error f => rw [hiter] at hsteps; cases hsteps
    | ok m' =>
      rw [hiter] at hsteps
      cases hsteps
      obtain ⟨k', -, hsteps'⟩ := hg _ hr m' rfl
      exact ⟨k + k', by omega, by rw [iter_add_of_ok hiter, hsteps']; rfl⟩

/-- The same along a computation whose results stand for cores. -/
theorem andThen {α : Type} {x : Except Fault α} {f : α → Core δ} {g : α → Except Fault (Core δ)}
    (h : c.Leads B (x.map f)) (hg : ∀ a, x = .ok a → (f a).Leads B (g a)) :
    c.Leads B (x.bind g) := by
  cases x with
  | error e => exact h
  | ok a => exact bind h (g := fun _ => g a) fun c' hc => by cases hc; exact hg a rfl

theorem trans {c' : Core δ} (h : c.Leads B (.ok c')) (h' : c'.Leads B r) : c.Leads B r :=
  h.bind (g := fun _ => r) fun _ hc => by cases hc; exact h'

end Core.Leads

end DmaCpu.Emu
