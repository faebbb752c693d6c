-- SUMMARY: `Run`: rounds of the scheduler until the machine halts, stalls, hits a watched write or has used its budget.
import DmaCpu.Emu.Sole
import DmaCpu.Lib.Fallible
import DmaCpu.Emu.Poke

/-!
# Runs

A round of `Run` is one step and, when nothing was issued, a verdict: halted, stalled,
or waiting for a pacing timer, and then the clock jumps to the cycle before the next
pulse. A verdict looks at the channels and the pacing timers only. The transmit lines
of UART0, HSTX and PIO0 raise their requests by the clock as well.
-/
namespace DmaCpu.Emu

open Fallible

variable {δ : Type} (B : Board δ)

theorem Timer.active_congr {t t' : Timer} (h : t'.reg = t.reg) : t'.active = t.active := by
  unfold Timer.active Timer.x Timer.y
  rw [h]

/-- Blocked on a pacing timer that will produce credit. -/
def Dma.waitsOnLiveTimer (v : Variant) (d : Dma) (i : Nat) : Bool :=
  let c := d.ch i
  c.busy && c.enabled && decide (treqTimer0 ≤ c.treq v ∧ c.treq v ≤ treqTimer0 + 3) &&
    (d.timers (c.treq v - treqTimer0).toNat).active

structure RunConfig where
  maxCycles : Nat
  watchWrites : List Word

/-- No bound means ten million cycles. -/
def RunConfig.budget (cfg : RunConfig) : Nat := if cfg.maxCycles = 0 then 10000000 else cfg.maxCycles

inductive StopReason where
  | idle
  | stalled
  | watch (addr : Word)
  | maxCycles
  | fault (f : Fault)

namespace Machine

variable (m : Machine δ)

def anyBusy : Bool :=
  (List.range B.v.nChannels).any fun i => (m.dma.ch i).busy && (m.dma.ch i).enabled

def anyTimerWait : Bool := (List.range B.v.nChannels).any fun i => m.dma.waitsOnLiveTimer B.v i

/-- The jump to the cycle before the next pulse, within the budget. -/
def leap (lim : Nat) : Machine δ :=
  if m.cycle + 1 < m.dma.timerNextMin then { m with cycle := min (m.dma.timerNextMin - 1) lim }
  else m

/-- What a round comes to. -/
inductive Verdict where
  | stop (r : StopReason)
  | issued
  | waiting

/-- The verdict on a machine that has stepped. -/
def verdict (issued : Bool) : Verdict :=
  match m.watchHit with
  | some addr => .stop (.watch addr)
  | none =>
    if issued then .issued
    else if !m.anyBusy B then .stop .idle
    else if !m.anyTimerWait B then .stop .stalled
    else .waiting

/-- One round. Of a step that fails only the cycle is kept. -/
def round : Verdict × Machine δ :=
  match m.step B with
  | .error f => (.stop (.fault f), { m with cycle := m.cycle + 1 })
  | .ok (issued, m) => (m.verdict B issued, m)

/-- The loop of `Run`, for at most as many rounds as there are cycles left. -/
def runLoop (jump : Bool) (lim : Nat) : Nat → Machine δ → StopReason × Machine δ
  | 0, m => (.maxCycles, m)
  | fuel + 1, m =>
    if m.cycle < lim then
      match m.round B with
      | (.stop r, m) => (r, m)
      | (.issued, m) => runLoop jump lim fuel m
      | (.waiting, m) => runLoop jump lim fuel (if jump then m.leap lim else m)
    else (.maxCycles, m)

/-- The machine that `Run` starts with. -/
def watching (cfg : RunConfig) : Machine δ := { m with watch := cfg.watchWrites, watchHit := none }

/-- `Run`, with the idle jump as an option; its `Cycles` is how far the clock has moved. -/
def runWith (jump : Bool) (cfg : RunConfig) : StopReason × Machine δ :=
  let r := runLoop B jump (m.cycle + cfg.budget) cfg.budget (m.watching cfg)
  (r.1, { r.2 with watch := [] })

def run (cfg : RunConfig) : StopReason × Machine δ := m.runWith B (!B.noFast) cfg

end Machine

/-! ## The request lines -/

namespace Machine

/-- The clock alone raises the line. -/
def timed (m : Machine δ) : Line → Bool
  | .uartTx => true
  | .hstx => true
  | .pio sm => (B.pioCtrl m.dev).getLsbD sm
  | _ => false

variable {B} {m : Machine δ} {i : Nat} {l : Line}

theorem cycle_service (l : Line) : (m.service B l).cycle = m.cycle := by
  unfold service
  split
  · cases l <;> rfl
  · rfl

/-- A service moves the slot of its own line, when that is up. -/
theorem level_service {k : Line} (h : k = l → m.level B m.cycle l = false) (cycle : Nat) :
    (m.service B k).level B cycle l = m.level B cycle l := by
  unfold service
  split
  next hup =>
    have hne : k ≠ l := by
      rintro rfl
      simp [h rfl] at hup
    cases k <;> cases l <;> first | rfl | exact absurd rfl hne | skip
    next sm sm' =>
      have hsm : sm' ≠ sm := fun hsm => hne (congrArg Line.pio hsm.symm)
      simp [level, rearm, Function.update_of_ne hsm]
  · rfl

theorem level_serve (h : m.level B (m.cycle + 1) l = false) (cycle : Nat) :
    (m.serve B).level B cycle l = m.level B cycle l := by
  refine (serve_rec B m (P := fun k => k.cycle = m.cycle + 1 ∧
    ∀ cycle, k.level B cycle l = m.level B cycle l) ?_ ?_).2 cycle
  · exact ⟨rfl, fun _ => by cases l <;> rfl⟩
  · rintro k l' - ⟨hcycle, hk⟩
    refine ⟨(cycle_service l').trans hcycle, fun cycle => ?_⟩
    rw [level_service fun _ => by rw [hk, hcycle, h], hk]

/-- A service gives a starved channel on its line a credit, when the line is up. -/
theorem ch_service (hi : i < B.v.nChannels) (l : Line) : (m.service B l).dma.ch i =
    if l.on B.v (m.dma.ch i) ∧ m.level B m.cycle l ∧ Dma.starved (m.dma.ch i) then
      { m.dma.ch i with credit := 1 } else m.dma.ch i := by
  have hlevel : (m.dma.levelDreq B.v (l.on B.v)).ch i =
      if l.on B.v (m.dma.ch i) ∧ Dma.starved (m.dma.ch i) then { m.dma.ch i with credit := 1 }
      else m.dma.ch i := by
    simp [Dma.levelDreq, Dma.mapCh, hi]
  unfold service
  split
  next hup =>
    rw [hlevel]
    simp [(Bool.and_eq_true ..).mp hup]
  next hup =>
    rw [if_neg]
    rintro ⟨hon, hl, -⟩
    have hheard : m.heard B (l.on B.v) = true := List.any_eq_true.2 ⟨i, List.mem_range.2 hi, hon⟩
    exact hup (by rw [hheard, hl]; rfl)

theorem ch_fireTimer {v : Variant} {d : Dma} {now j : Nat}
    (h : (d.timers j).active = true → (d.ch i).treq v ≠ treqTimer0 + BitVec.ofNat 32 j) :
    (Dma.fireTimer v now d j).ch i = d.ch i := by
  unfold Dma.fireTimer
  simp only
  split
  next hdue =>
    have hne := h (by simpa using (Bool.and_eq_true _ _ ▸ hdue).1)
    refine Function.Iterate.rec (fun d' : Dma => d'.ch i = d.ch i) rfl ?_ _
    intro d' hd'
    unfold Dma.pulseTimer Dma.mapCh
    simp [hd', hne]
  next => rfl

theorem ch_fireDue {v : Variant} {d : Dma} {now : Nat}
    (h : ∀ j < 4, (d.timers j).active = true → (d.ch i).treq v ≠ treqTimer0 + BitVec.ofNat 32 j) :
    (d.fireDue v now).ch i = d.ch i := by
  have hfold : (d.fireDue v now).ch i = d.ch i ∧ (d.fireDue v now).erase = d.erase := by
    refine List.foldlRecOn (motive := fun d' => d'.ch i = d.ch i ∧ d'.erase = d.erase)
      (List.range 4) (Dma.fireTimer v now) ⟨rfl, rfl⟩ ?_
    intro d' ⟨hch, herase⟩ j hj
    have hreg : (d'.timers j).reg = (d.timers j).reg :=
      (congrArg (fun d : Dma => (d.timers j).reg) herase :)
    refine ⟨(ch_fireTimer ?_).trans hch, (Dma.erase_fireTimer v d' now j).trans herase⟩
    rw [hch, Timer.active_congr hreg]
    exact h j (List.mem_range.1 hj)
  exact hfold.1

theorem arbiter_eq_none (ready : List Nat) (hp : Nat → Bool) (rrLast : Nat) :
    arbiter ready hp rrLast = none ↔ ready = [] := by
  unfold arbiter
  constructor
  · intro h
    simp only at h
    split at h
    · cases h
    · have hpick := List.head?_eq_none_iff.1 h
      split at hpick
      · exact hpick
      next hne => exact absurd (List.isEmpty_iff.2 hpick) hne
  · rintro rfl
    rfl

/-- A step that issues nothing has served the requests, and no channel can run. -/
theorem step_idle {m' : Machine δ} :
    m.step B = .ok (false, m') ↔ m' = m.serve B ∧ (m.serve B).dma.ready B.v = [] := by
  rw [← arbiter_eq_none _ (fun i => ((m.serve B).dma.ch i).highPriority) (m.serve B).rrLast]
  unfold step stepWith
  simp only
  cases arbiter ((m.serve B).dma.ready B.v) (fun i => ((m.serve B).dma.ch i).highPriority)
      (m.serve B).rrLast with
  | none => simp [eq_comm]
  | some i =>
    have hissued : ∀ r : Except Fault (Machine δ), r.map (fun m => (true, m)) ≠ .ok (false, m') := by
      intro r
      cases r <;> simp [Except.map]
    simp only [reduceCtorEq, and_false, iff_false]
    split
    · exact hissued _
    · exact hissued _

/-- The channel can run as soon as its request comes. -/
def waits (c : Channel) : Prop := c.busy = true ∧ c.enabled = true ∧ c.wedged = false

theorem erase_serve (i : Nat) : ((m.serve B).dma.ch i).erase = (m.dma.ch i).erase :=
  congrArg (fun c : Core δ => c.dma.ch i) (m.core_serve B)

theorem waits_serve : waits ((m.serve B).dma.ch i) ↔ waits (m.dma.ch i) :=
  (congrArg waits (erase_serve i)).to_iff

/-- Channel `i` waits for a request that is down and that the clock does not raise. -/
structure Stuck (B : Board δ) (m : Machine δ) (i : Nat) : Prop where
  bound : (m.dma.ch i).treq B.v ≠ treqPermanent
  credit : (m.dma.ch i).credit = 0
  timers : ∀ j < 4, (m.dma.timers j).active = true →
    (m.dma.ch i).treq B.v ≠ treqTimer0 + BitVec.ofNat 32 j
  down : ∀ l ∈ lines, l.on B.v (m.dma.ch i) = true → ∀ cycle, m.level B cycle l = false

theorem Stuck.service (h : m.Stuck B i) (hi : i < B.v.nChannels) (hl : l ∈ lines) :
    (m.service B l).Stuck B i := by
  have hch : (m.service B l).dma.ch i = m.dma.ch i := by
    rw [ch_service hi, if_neg]
    rintro ⟨hon, hup, -⟩
    rw [h.down l hl hon] at hup
    cases hup
  have htimers : (m.service B l).dma.timers = m.dma.timers := by
    unfold Machine.service
    split <;> rfl
  refine ⟨hch ▸ h.bound, hch ▸ h.credit, by rw [htimers, hch]; exact h.timers, fun l' hl' hon cycle => ?_⟩
  rw [hch] at hon
  rw [level_service fun _ => h.down l' hl' hon _]
  exact h.down l' hl' hon cycle

theorem Stuck.serve (h : m.Stuck B i) (hi : i < B.v.nChannels) : (m.serve B).Stuck B i := by
  refine serve_rec B m (P := (Stuck B · i)) ?_ fun k l hl hk => hk.service hi hl
  have hch : (m.pulsed B).ch i = m.dma.ch i := by
    unfold pulsed
    split
    · exact ch_fireDue h.timers
    · rfl
  have hreg : ∀ j, ((m.pulsed B).timers j).reg = (m.dma.timers j).reg := fun j =>
    (congrArg (fun d : Dma => (d.timers j).reg) (m.erase_pulsed B) :)
  refine ⟨hch ▸ h.bound, hch ▸ h.credit, fun j hj => ?_, fun l hl hon cycle => ?_⟩
  · rw [Timer.active_congr (hreg j), hch]
    exact h.timers j hj
  · rw [hch] at hon
    exact (by cases l <;> rfl : _ = m.level B cycle l).trans (h.down l hl hon cycle)

theorem ready_eq_nil : m.dma.ready B.v = [] ↔
    ∀ i < B.v.nChannels, waits (m.dma.ch i) →
      (m.dma.ch i).treq B.v ≠ treqPermanent ∧ (m.dma.ch i).credit = 0 := by
  simp [Dma.ready, List.filter_eq_nil_iff, Channel.runnable, waits]
  grind

/-- Nothing is issued in the next `n` cycles. -/
def idles (B : Board δ) : Nat → Machine δ → Prop
  | 0, _ => True
  | n + 1, m => ∃ m', m.step B = .ok (false, m') ∧ idles B n m'

theorem idles_of_stuck (h : ∀ i < B.v.nChannels, waits (m.dma.ch i) → m.Stuck B i) (n : Nat) :
    idles B n m := by
  induction n generalizing m with
  | zero => trivial
  | succ n ih =>
    have hserve : ∀ i < B.v.nChannels, waits ((m.serve B).dma.ch i) → (m.serve B).Stuck B i :=
      fun i hi hw => (h i hi (waits_serve.1 hw)).serve hi
    refine ⟨m.serve B, step_idle.2 ⟨rfl, ready_eq_nil.2 ?_⟩, ih hserve⟩
    intro i hi hw
    exact ⟨(hserve i hi hw).bound, (hserve i hi hw).credit⟩

theorem credit_foldl (hi : i < B.v.nChannels) {ls : List Line} (h : (m.dma.ch i).credit ≠ 0) :
    ((ls.foldl (service B) m).dma.ch i).credit ≠ 0 := by
  refine List.foldlRecOn (motive := fun k : Machine δ => (k.dma.ch i).credit ≠ 0) ls (service B) h ?_
  intro k hk l _
  rw [ch_service hi, if_neg]
  · exact hk
  · simp [Dma.starved, hk]

/-- A line that is up gives an armed channel a credit. -/
theorem credit_of_level (hi : i < B.v.nChannels) {ls : List Line} (hl : l ∈ ls)
    (hbusy : (m.dma.ch i).busy = true) (hon : l.on B.v (m.dma.ch i) = true)
    (hup : m.level B m.cycle l = true) : ((ls.foldl (service B) m).dma.ch i).credit ≠ 0 := by
  induction ls generalizing m with
  | nil => cases hl
  | cons k ls ih =>
    rw [List.foldl_cons]
    by_cases hcredit : ((m.service B k).dma.ch i).credit = 0
    · have hch : (m.service B k).dma.ch i = m.dma.ch i := by
        rw [ch_service hi] at hcredit ⊢
        split at hcredit
        · cases hcredit
        next h => rw [if_neg h]
      have hne : k ≠ l := by
        rintro rfl
        have hstarved : Dma.starved (m.dma.ch i) = true := by
          rw [hch] at hcredit
          simp [Dma.starved, hbusy, hcredit]
        rw [ch_service hi, if_pos ⟨hon, hup, hstarved⟩] at hcredit
        cases hcredit
      refine ih ((List.mem_cons.1 hl).resolve_left hne.symm) ?_ ?_ ?_
      · rw [hch]; exact hbusy
      · rw [hch]; exact hon
      · rw [level_service fun h => absurd h hne, cycle_service]
        exact hup
    · exact credit_foldl hi hcredit

theorem credit_serve (hi : i < B.v.nChannels) (hl : l ∈ lines)
    (hbusy : ((m.serve B).dma.ch i).busy = true) (hon : l.on B.v ((m.serve B).dma.ch i) = true)
    (hup : m.level B (m.cycle + 1) l = true) : ((m.serve B).dma.ch i).credit ≠ 0 := by
  have hpulsed : ((m.serve B).dma.ch i).erase = ((m.pulsed B).ch i).erase :=
    (erase_serve i).trans (congrArg (fun d : Dma => d.ch i) (m.erase_pulsed B).symm)
  rw [← l.on_erase, hpulsed, l.on_erase] at hon
  have hbusy' := (congrArg Channel.busy hpulsed).symm.trans hbusy
  rw [serve_eq]
  exact credit_of_level hi hl hbusy' hon (by cases l <;> exact hup)

/-- A channel that still waits after the requests have been served got none. -/
theorem down_of_ready (hi : i < B.v.nChannels) (hw : waits ((m.serve B).dma.ch i))
    (hnil : (m.serve B).dma.ready B.v = []) (hl : l ∈ lines)
    (hon : l.on B.v ((m.serve B).dma.ch i) = true) : m.level B (m.cycle + 1) l = false := by
  by_contra hup
  rw [Bool.not_eq_false] at hup
  exact credit_serve hi hl hw.1 hon hup (ready_eq_nil.1 hnil i hi hw).2

theorem level_of_not_timed (h : m.timed B l = false) (cycle cycle' : Nat) :
    m.level B cycle l = m.level B cycle' l := by
  cases l <;> first | rfl | cases h | skip
  simp only [timed] at h
  simp [level, h]

theorem exists_level (h : m.timed B l = true) :
    ∃ n, ∀ cycle, n ≤ cycle → m.level B cycle l = true := by
  cases l <;> first | cases h | skip
  case uartTx =>
    refine ⟨B.lastTX m.dev + B.txPace m.dev, fun cycle hle => ?_⟩
    have hdue : B.txPace m.dev ≤ cycle - B.lastTX m.dev := by omega
    simp [level, hdue]
  case hstx => exact ⟨m.hstxNext, fun cycle hle => by simp [level, hle]⟩
  case pio sm => exact ⟨m.pioNext sm, fun cycle hle => by simp only [timed] at h; simp [level, hle, h]⟩

/-- A channel whose request the clock raises does not wait for ever. -/
theorem not_idles {n : Nat} (hi : i < B.v.nChannels) (hl : l ∈ lines) (k : Nat) {m : Machine δ}
    (hk : n ≤ m.cycle + k + 1) (hw : waits (m.dma.ch i)) (hon : l.on B.v (m.dma.ch i) = true)
    (hn : ∀ cycle, n ≤ cycle → m.level B cycle l = true) : ¬idles B (k + 1) m := by
  rintro ⟨m', hstep, hidles⟩
  obtain ⟨rfl, hnil⟩ := step_idle.1 hstep
  have hw' : waits ((m.serve B).dma.ch i) := waits_serve.2 hw
  rw [← l.on_erase, ← erase_serve (m := m), l.on_erase] at hon
  have hdown := down_of_ready hi hw' hnil hl hon
  -- each idle cycle brings the slot a cycle nearer
  cases k with
  | zero =>
    rw [hn _ hk] at hdown
    cases hdown
  | succ k =>
    have hcycle : (m.serve B).cycle = m.cycle + 1 := congrArg Core.cycle (m.core_serve B)
    refine not_idles (n := n) hi hl k (by omega) hw' hon (fun cycle hle => ?_) hidles
    rw [level_serve hdown]
    exact hn cycle hle

theorem round_eq {m' : Machine δ} {r : Verdict} (h : m.round B = (r, m')) (hr : ∀ f, r ≠ .stop (.fault f)) :
    ∃ issued, m.step B = .ok (issued, m') ∧ m'.verdict B issued = r := by
  unfold round at h
  split at h
  · cases h
    exact absurd rfl (hr _)
  next issued k hstep =>
    cases h
    exact ⟨issued, hstep, rfl⟩

/-- Nothing was issued: the channels and the timers decide. -/
theorem verdict_eq_iff {issued : Bool} {r : Verdict} (hr : r = .stop .stalled ∨ r = .waiting) :
    m.verdict B issued = r ↔ issued = false ∧ m.watchHit = none ∧ m.anyBusy B = true ∧
      (m.anyTimerWait B = false ↔ r = .stop .stalled) := by
  unfold verdict
  cases m.watchHit <;> cases issued <;> cases m.anyBusy B <;> cases m.anyTimerWait B <;>
    rcases hr with rfl | rfl <;> simp

theorem runLoop_stalled {jump : Bool} {lim fuel : Nat}
    (h : (runLoop B jump lim fuel m).1 = .stalled) :
    ∃ k : Machine δ, k.step B = .ok (false, (runLoop B jump lim fuel m).2) ∧
      (runLoop B jump lim fuel m).2.anyTimerWait B = false := by
  induction fuel generalizing m with
  | zero => cases h
  | succ fuel ih =>
    unfold runLoop at h ⊢
    split at h
    next hlt =>
      rw [if_pos hlt]
      split at h
      next r k hround =>
        obtain rfl : r = .stalled := h
        obtain ⟨issued, hstep, hverdict⟩ := round_eq hround nofun
        obtain ⟨rfl, -, -, hwait⟩ := (verdict_eq_iff (.inl rfl)).1 hverdict
        exact ⟨m, hstep, hwait.2 rfl⟩
      next => exact ih h
      next => exact ih h
    · cases h

/-- A stalled run ends behind a cycle in which the requests were served and nothing could run. -/
theorem run_stalled {cfg : RunConfig} {m' : Machine δ} (h : m.run B cfg = (.stalled, m')) :
    ∃ k : Machine δ, m' = { k.serve B with watch := [] } ∧ (k.serve B).dma.ready B.v = [] ∧
      (k.serve B).anyTimerWait B = false := by
  obtain ⟨k, hstep, hwait⟩ := runLoop_stalled (congrArg Prod.fst h)
  obtain ⟨hk, hnil⟩ := step_idle.1 hstep
  refine ⟨k, ?_, hnil, hk ▸ hwait⟩
  rw [← hk]
  exact (congrArg Prod.snd h).symm

theorem timers_of_not_wait (hi : i < B.v.nChannels) (hw : waits (m.dma.ch i))
    (h : m.anyTimerWait B = false) (j : Nat) (hj : j < 4) (hact : (m.dma.timers j).active = true) :
    (m.dma.ch i).treq B.v ≠ treqTimer0 + BitVec.ofNat 32 j := by
  intro htreq
  have hline : ∀ j < 4, treqTimer0 ≤ treqTimer0 + BitVec.ofNat 32 j ∧
      treqTimer0 + BitVec.ofNat 32 j ≤ treqTimer0 + 3#32 ∧
      (treqTimer0 + BitVec.ofNat 32 j - treqTimer0).toNat = j := by decide
  have hlive : m.dma.waitsOnLiveTimer B.v i = true := by
    obtain ⟨hle, hge, hsub⟩ := hline j hj
    unfold Dma.waitsOnLiveTimer
    simp only [htreq, hsub]
    simp [hw.1, hw.2.1, hle, hge, hact]
  have hall := List.any_eq_false.1 h i (List.mem_range.2 hi)
  exact hall hlive

theorem stalled_iff {cfg : RunConfig} {m' : Machine δ} (h : m.run B cfg = (.stalled, m')) :
    (∀ n, idles B n m') ↔ ∀ i < B.v.nChannels, waits (m'.dma.ch i) →
      ∀ l ∈ lines, l.on B.v (m'.dma.ch i) = true → m'.timed B l = false := by
  obtain ⟨k, rfl, hnil, hwait⟩ := run_stalled h
  constructor
  · intro hidles i hi hw l hl hon
    by_contra htimed
    obtain ⟨n, hn⟩ := exists_level (Bool.not_eq_false _ ▸ htimed)
    exact not_idles hi hl n (by omega) hw hon hn (hidles _)
  · intro hcalm
    refine idles_of_stuck fun i hi hw => ?_
    obtain ⟨hbound, hcredit⟩ := ready_eq_nil.1 hnil i hi hw
    refine ⟨hbound, hcredit, timers_of_not_wait hi hw hwait, fun l hl hon cycle => ?_⟩
    have hdown := down_of_ready hi hw hnil hl hon
    rw [level_of_not_timed (hcalm i hi hw l hl hon) cycle (k.cycle + 1)]
    exact (by cases l <;> rfl : _ = (k.serve B).level B (k.cycle + 1) l).trans
      ((level_serve hdown _).trans hdown)

/-- Channel 0 of an RP2040 waits for a request, with one word to move. -/
def waitingOn (dreq : Word) : Machine Unit :=
  { bareMachine [] with
    dma := (bareMachine []).dma.setCh 0
      { readAddr := 0x20000000, writeAddr := 0x20000004, remaining := 1, busy := true
        ctrl := ctrlEN ||| ctrlSize32 ||| Variant.rp2040.ctrlTreq dreq } }

/-- Nothing ever arrives on UART0. -/
theorem stalled_iff_uartRx :
    let r := (waitingOn 21).run (bareBoard .rp2040) ⟨0, []⟩
    r.1 = .stalled ∧ ∀ n, idles (bareBoard .rp2040) n r.2 := by
  have h : (waitingOn 21).run (bareBoard .rp2040) ⟨0, []⟩ = (.stalled, _) := rfl
  refine ⟨rfl, (stalled_iff h).2 ?_⟩
  unfold waits
  decide +kernel

/-- The transmitter of UART0 is free every four cycles. -/
def slowUart : Board Unit := { bareBoard .rp2040 with txPace := fun _ => 4 }

/-- The word is moved three cycles behind the verdict. -/
theorem stalled_transfers :
    let r := (waitingOn 20).run slowUart ⟨0, []⟩
    r.1 = .stalled ∧ ((iter (next slowUart) 3 r.2).map fun m => (m.dma.ch 0).remaining) = .ok 0 ∧
      ¬idles slowUart 3 r.2 := by
  refine ⟨rfl, rfl, ?_⟩
  refine not_idles (i := 0) (l := .uartTx) (n := 4) (by decide) (by decide) 2
    (by decide) ⟨rfl, rfl, rfl⟩ rfl fun cycle hle => ?_
  have hlevel : decide (4 ≤ cycle) = true := decide_eq_true hle
  exact hlevel

/-! ## The idle jump -/

theorem cycle_move {c c' : Core δ} (h : c.move B i = .ok c') : c'.cycle = c.cycle := by
  unfold Core.move at h
  simp only at h
  split at h
  · cases h
  next w _ =>
    obtain ⟨⟨x, c₁⟩, hget, h⟩ := bind_eq_ok.1 h
    obtain ⟨_, -, heq⟩ := map_eq_ok.1 hget
    cases heq
    obtain ⟨c₂, hput, h⟩ := bind_eq_ok.1 h
    cases h
    unfold Core.put at hput
    split at hput
    · cases hput
    · split at hput
      · cases hput
        rfl
      · obtain ⟨_, -, rfl⟩ := map_eq_ok.1 hput
        rfl

theorem cycle_transfer {m' : Machine δ} (h : m.transfer B i = .ok m') : m.cycle = m'.cycle := by
  have hmove := m.transfer_core B i
  rw [h] at hmove
  exact (cycle_move hmove.symm).symm

theorem cycle_burst {k : Nat} {m' : Machine δ} (h : m.burst B i k = .ok m') : m.cycle ≤ m'.cycle := by
  unfold burst at h
  simp only at h
  split at h
  · exact Nat.le_of_eq (cycle_transfer h)
  · split at h
    · split at h
      · exact Nat.le_of_eq (cycle_transfer h)
      · cases h
        exact Nat.le_add_right ..
    · exact Nat.le_of_eq (cycle_transfer h)

theorem cycle_step {issued : Bool} {m' : Machine δ} (h : m.step B = .ok (issued, m')) :
    m.cycle < m'.cycle := by
  have hserve : (m.serve B).cycle = m.cycle + 1 := congrArg Core.cycle (m.core_serve B)
  unfold step stepWith at h
  simp only at h
  split at h
  · cases h
    omega
  · split at h
    · obtain ⟨_, h, heq⟩ := map_eq_ok.1 h
      cases heq
      exact Nat.lt_of_lt_of_le (hserve ▸ Nat.lt_succ_self _) (cycle_burst h)
    · obtain ⟨_, h, heq⟩ := map_eq_ok.1 h
      cases heq
      rw [← cycle_transfer h]
      exact hserve ▸ Nat.lt_succ_self _

/-- Between two cycles no line changes anything: whoever is on one that is up has its credit,
    and it has no slots. -/
def Still (B : Board δ) (m : Machine δ) (target : Nat) : Prop :=
  ∀ cycle, m.cycle < cycle → cycle ≤ target → ∀ l ∈ lines, m.level B cycle l = true →
    m.dma.anyStarved B.v (l.on B.v) = false ∧
      (m.heard B (l.on B.v) = true → ∀ k : Machine δ, k.rearm B l = k)

theorem Still.serve {target : Nat} (h : m.Still B target) (hlt : m.cycle < target)
    (htimer : m.cycle + 1 < m.dma.timerNextMin) : m.serve B = { m with cycle := m.cycle + 1 } := by
  refine serve_rec B m (P := (· = { m with cycle := m.cycle + 1 })) ?_ ?_
  · unfold pulsed
    rw [if_neg fun hdue => by omega]
  · rintro _ l hl rfl
    unfold service
    split
    next hup =>
      obtain ⟨hheard, hlevel⟩ := (Bool.and_eq_true ..).mp hup
      obtain ⟨hfed, hslot⟩ := h (m.cycle + 1) (by omega) (by omega) l hl (by cases l <;> exact hlevel)
      rw [hslot hheard, levelDreq_fed B { m with cycle := m.cycle + 1 } hfed]
    next => rfl

/-- Nothing can run, and a channel waits for a pacing timer. -/
structure Waiting (B : Board δ) (m : Machine δ) : Prop where
  idle : m.dma.ready B.v = []
  watch : m.watchHit = none
  busy : m.anyBusy B = true
  wait : m.anyTimerWait B = true

theorem round_waiting {m' : Machine δ} (hstep : m.step B = .ok (false, m')) (h : m'.Waiting B) :
    m.round B = (.waiting, m') := by
  have hverdict : m'.verdict B false = .waiting :=
    (verdict_eq_iff (.inr rfl)).2 ⟨rfl, h.watch, h.busy, by simp [h.wait]⟩
  unfold round
  rw [hstep, ← hverdict]

/-- The cycles that the jump leaves out. -/
theorem Still.runLoop {target lim : Nat} (hlim : target ≤ lim) (n fuel : Nat) {m : Machine δ}
    (h : m.Still B target) (hw : m.Waiting B) (hn : m.cycle + n ≤ target)
    (htimer : m.cycle + n < m.dma.timerNextMin) :
    runLoop B false lim (fuel + n) m = runLoop B false lim fuel { m with cycle := m.cycle + n } := by
  induction n generalizing m with
  | zero => rfl
  | succ n ih =>
    have hserve := h.serve (by omega) (by omega)
    have hw' : Waiting B { m with cycle := m.cycle + 1 } := ⟨hw.idle, hw.watch, hw.busy, hw.wait⟩
    have hround := round_waiting (step_idle.2 ⟨hserve.symm, hserve ▸ hw.idle⟩) hw'
    have hstill : Still B { m with cycle := m.cycle + 1 } target := fun cycle hlt hle l hl hup =>
      h cycle (Nat.lt_of_succ_lt hlt) hle l hl (by cases l <;> exact hup)
    rw [← Nat.add_assoc, Machine.runLoop, if_pos (by omega), hround]
    simp only [Bool.false_eq_true, if_false]
    rw [ih hstill hw' (by dsimp only; omega) (by dsimp only; omega)]
    congr 2
    dsimp only
    omega

theorem runLoop_over {jump : Bool} {lim : Nat} (h : lim ≤ m.cycle) (fuel : Nat) :
    runLoop B jump lim fuel m = (.maxCycles, m) := by
  cases fuel with
  | zero => rfl
  | succ fuel => rw [runLoop, if_neg (Nat.not_lt.2 h)]

/-- Up to a cycle no slot of HSTX or PIO0 comes up that a channel is on, and no byte time of
    UART0 that a channel waits for. -/
structure Quiet (B : Board δ) (m : Machine δ) (target : Nat) : Prop where
  uart : m.level B target .uartTx = true → m.dma.anyStarved B.v (Line.uartTx.on B.v) = false
  hstx : m.level B target .hstx = true → m.heard B (Line.hstx.on B.v) = false
  pio : ∀ sm < 4, m.level B target (.pio sm) = true → m.heard B ((Line.pio sm).on B.v) = false

instance (target : Nat) : Decidable (m.Quiet B target) :=
  decidable_of_iff (_ ∧ _ ∧ _) ⟨fun h => ⟨h.1, h.2.1, h.2.2⟩, fun h => ⟨h.1, h.2, h.3⟩⟩

theorem level_mono {cycle target : Nat} (hle : cycle ≤ target) (h : m.level B cycle l = true) :
    m.level B target l = true := by
  cases l <;> simp only [level, Bool.or_eq_true, Bool.and_eq_true, decide_eq_true_eq] at h ⊢
  case uartTx => exact h.imp_right fun h => by omega
  case hstx => exact h.imp_right fun h => Nat.le_trans h hle
  case pio sm => exact ⟨h.1, Nat.le_trans h.2 hle⟩
  all_goals exact h

/-- Behind a cycle the lines that the clock does not raise are settled. -/
theorem Quiet.still {target : Nat} (h : (m.serve B).Quiet B target) : (m.serve B).Still B target := by
  intro cycle hlt hle l hl hup
  have hdev : (m.serve B).dev = m.dev := congrArg Core.dev (m.core_serve B)
  have hmono := level_mono hle hup
  cases l
  case uartTx => exact ⟨h.uart hmono, fun _ _ => rfl⟩
  case hstx =>
    have hnone := h.hstx hmono
    exact ⟨not_starved_of_unheard B _ hnone, fun hheard => absurd hheard (by simp [hnone])⟩
  case pio sm =>
    have hsm : sm < 4 := by
      simp only [lines, List.mem_cons, reduceCtorEq, Line.pio.injEq, List.not_mem_nil, or_false, false_or] at hl
      omega
    have hnone := h.pio sm hsm hmono
    exact ⟨not_starved_of_unheard B _ hnone, fun hheard => absurd hheard (by simp [hnone])⟩
  -- whoever was on it got a credit in the cycle before
  all_goals
    refine ⟨List.any_eq_false.2 fun i hi hstarved => ?_, fun _ _ => rfl⟩
    obtain ⟨hon, hstarved⟩ := (Bool.and_eq_true ..).mp hstarved
    obtain ⟨hbusy, hcredit⟩ := (Bool.and_eq_true ..).mp hstarved
    refine credit_serve (List.mem_range.1 hi) hl hbusy hon ?_ (beq_iff_eq.1 hcredit)
    simpa only [level, hdev] using hup

/-- The machines from which the loop jumps. -/
def leaps (B : Board δ) (lim : Nat) : Nat → Machine δ → List (Machine δ)
  | 0, _ => []
  | fuel + 1, m =>
    if m.cycle < lim then
      match m.round B with
      | (.stop _, _) => []
      | (.issued, m) => leaps B lim fuel m
      | (.waiting, m) => m :: leaps B lim fuel (m.leap lim)
    else []

theorem runLoop_jump {lim : Nat} {fuel fuel' : Nat} (hfuel : lim ≤ m.cycle + fuel)
    (hfuel' : lim ≤ m.cycle + fuel')
    (h : ∀ k ∈ leaps B lim fuel m, k.cycle + 1 < k.dma.timerNextMin →
      k.Quiet B (min (k.dma.timerNextMin - 1) lim)) :
    runLoop B true lim fuel m = runLoop B false lim fuel' m := by
  induction fuel generalizing m fuel' with
  | zero => rw [runLoop_over hfuel, runLoop_over hfuel]
  | succ fuel ih =>
    by_cases hlt : m.cycle < lim
    · obtain ⟨f, rfl⟩ : ∃ f, fuel' = f + 1 := ⟨fuel' - 1, by omega⟩
      unfold runLoop
      unfold leaps at h
      rw [if_pos hlt] at h
      rw [if_pos hlt, if_pos hlt]
      rcases hround : m.round B with ⟨_ | _ | _, k⟩ <;> rw [hround] at h <;> dsimp only at h ⊢
      · obtain ⟨issued, hstep, -⟩ := round_eq hround nofun
        have hcycle := cycle_step hstep
        exact ih (by omega) (by omega) h
      · obtain ⟨issued, hstep, hverdict⟩ := round_eq hround nofun
        obtain ⟨rfl, hwatch, hbusy, hwait⟩ := (verdict_eq_iff (.inr rfl)).1 hverdict
        obtain ⟨rfl, hnil⟩ := step_idle.1 hstep
        have hw : (m.serve B).Waiting B := ⟨hnil, hwatch, hbusy, by simpa using hwait⟩
        have hcycle := cycle_step hstep
        obtain ⟨hquiet, hrest⟩ := List.forall_mem_cons.1 h
        simp only [if_true, Bool.false_eq_true, if_false]
        unfold leap at hrest ⊢
        split at hrest
        next hjump =>
          rw [if_pos hjump]
          generalize htarget : min ((m.serve B).dma.timerNextMin - 1) lim = target at *
          have hserve : (m.serve B).cycle = m.cycle + 1 := congrArg Core.cycle (m.core_serve B)
          obtain ⟨n, hn⟩ : ∃ n, target = (m.serve B).cycle + n := ⟨target - (m.serve B).cycle, by omega⟩
          obtain ⟨f, rfl⟩ : ∃ f', f = f' + n := ⟨f - n, by omega⟩
          rw [(hquiet hjump).still.runLoop (by omega) n f hw (by omega) (by omega), ← hn]
          exact ih (by dsimp only; omega) (by dsimp only; omega) hrest
        next hjump =>
          rw [if_neg hjump]
          exact ih (by omega) (by omega) hrest
    · rw [runLoop_over (Nat.le_of_not_lt hlt), runLoop_over (Nat.le_of_not_lt hlt)]

theorem runWith_jump {cfg : RunConfig}
    (h : ∀ k ∈ leaps B (m.cycle + cfg.budget) cfg.budget (m.watching cfg),
      k.cycle + 1 < k.dma.timerNextMin →
        k.Quiet B (min (k.dma.timerNextMin - 1) (m.cycle + cfg.budget))) :
    m.runWith B true cfg = m.runWith B false cfg := by
  have hloop : runLoop B true (m.cycle + cfg.budget) cfg.budget (m.watching cfg) =
      runLoop B false (m.cycle + cfg.budget) cfg.budget (m.watching cfg) :=
    runLoop_jump (Nat.le_refl _) (Nat.le_refl _) h
  unfold runWith
  rw [hloop]

/-- Channel 1 waits for a timer that pulses every hundred cycles. -/
def besideTimer (dreq : Word) : Machine Unit :=
  let m := waitingOn dreq
  let dma := m.dma.setCh 1 ((waitingOn treqTimer0).dma.ch 0)
  { m with dma := { dma with timers := fun _ => Timer.recalc { reg := 0x00010064 } 0 } }

theorem runWith_jump_uartRx :
    (besideTimer 21).runWith (bareBoard .rp2040) true ⟨120, []⟩ =
      (besideTimer 21).runWith (bareBoard .rp2040) false ⟨120, []⟩ :=
  runWith_jump (by decide +kernel)

/-- The jump to the pulse passes over the byte time of UART0. -/
theorem jump_passes_slot :
    (((besideTimer 20).runWith slowUart true ⟨50, []⟩).2.dma.ch 0).remaining = 1 ∧
      (((besideTimer 20).runWith slowUart false ⟨50, []⟩).2.dma.ch 0).remaining = 0 := by
  decide +kernel

/-! ## EMU_NO_FAST -/

def slow (B : Board δ) : Board δ := { B with noFast := true }

theorem next_slow {i : Nat} (hsole : m.core.dma.Sole B.v i) :
    (m.next (slow B)).map core = m.core.beat B i := by
  have hcore := m.core_serve (slow B)
  have hready := (Dma.Sole.erase (slow B).v ((congrArg Core.dma hcore).symm ▸ hsole)).ready
  have hone : m.next (slow B) = { m.serve (slow B) with rrLast := i }.transfer (slow B) i := by
    unfold next step stepWith
    simp only [hready, arbiter_singleton, show (slow B).noFast = true from rfl, Bool.not_true,
      Bool.false_eq_true, false_and, if_false]
    generalize transfer _ _ _ = r
    cases r <;> rfl
  rw [hone, transfer_core]
  exact congrArg (fun c : Core δ => c.move B i) hcore

/-- The words that the only running channel has left: windows and bursts may save steps, but
    they end where one step a word ends, or in the same fault. -/
theorem slow_agrees {i n : Nat} (hrun : ∀ j < n, ∀ c, iter (Core.beat B i) j m.core = .ok c →
      c.dma.Sole B.v i ∧ (c.dma.ch i).remaining.toNat = n - j) :
    ∃ k ≤ n, (iter (next B) k m).map core = (iter (next (slow B)) n m).map core := by
  obtain ⟨k, hk, -, hfast⟩ := run_beats B n m hrun
  refine ⟨k, hk, hfast.trans ?_⟩
  clear hfast hk
  induction n generalizing m with
  | zero => rfl
  | succ n ih =>
    have hstep := next_slow (hrun 0 n.succ_pos _ rfl).1
    rw [iter_succ, iter_succ, ← hstep]
    cases hm : m.next (slow B) with
    | error => rfl
    | ok m' =>
      rw [hm] at hstep
      refine ih fun j hj c hc => ?_
      obtain ⟨hs, hr⟩ := hrun (j + 1) (by omega) c (by rw [iter_succ, ← hstep]; exact hc)
      exact ⟨hs, by omega⟩

theorem slow_agrees_one : ∃ k ≤ 1,
    (iter (next (bareBoard .rp2040)) k (waitingOn treqPermanent)).map core =
      (iter (next (slow (bareBoard .rp2040))) 1 (waitingOn treqPermanent)).map core := by
  refine slow_agrees (i := 0) fun j hj c hc => ?_
  obtain rfl : j = 0 := by omega
  cases hc
  refine ⟨⟨by decide, by decide, by decide, by decide, by decide, fun j hj => ?_⟩, by decide⟩
  exact congrArg (fun c : Channel => c.erase.busy) (Dma.setCh_other _ hj _)

end Machine

end DmaCpu.Emu
