-- SUMMARY: Pacing timers: the schedule of next pulses against accumulators that are stepped every cycle.
import DmaCpu.Emu.Poke
import DmaCpu.Emu.Sole
import DmaCpu.Lib.Run

/-!
# Pacing timers

A timer adds X to its accumulator every cycle, and each whole Y is a pulse. The
emulator does not step it: it keeps the cycle at which the accumulator was last brought
up to date and the cycle of the next pulse, and looks only then. Between pulses the clock
may skip, in the idle jump and in a burst, and both stop short of the next pulse.
-/
namespace DmaCpu.Emu

open Function Run

namespace Timer

/-- A cycle of the accumulator: the pulses, and what is left. -/
def tick (t : Timer) : Nat × Timer :=
  if t.active then ((t.acc + t.x) / t.y, { t with acc := (t.acc + t.x) % t.y }) else (0, t)

/-- What `fireDue` does for one timer: the pulses, and the new schedule. -/
def due (t : Timer) (now : Nat) : Nat × Timer :=
  if t.active && decide (t.next ≤ now) then
    let total := t.acc + t.x * (now - t.last)
    let acc := total % t.y
    (total / t.y,
      { t with acc := acc, last := now, next := now + max 1 ((t.y - acc + t.x - 1) / t.x) })
  else (0, t)

/-- The schedule `t` stands for the accumulator `a` at cycle `now`: while the timer runs, what
    was added since the last pulse is below Y in every cycle before the next one. -/
structure Tracks (now : Nat) (t a : Timer) : Prop where
  reg : a.reg = t.reg
  still : t.active = false → a.acc = t.acc
  runs : t.active = true → t.last ≤ now ∧ now < t.next ∧ a.acc = t.acc + t.x * (now - t.last) ∧
    ∀ n, t.last < n → n < t.next → t.acc + t.x * (n - t.last) < t.y

theorem lt_of_lt_div {acc x y now n : Nat} (hx : 0 < x) (h : now < n)
    (hn : n < now + max 1 ((y - acc + x - 1) / x)) : acc + x * (n - now) < y := by
  have hle : n - now + 1 ≤ (y - acc + x - 1) / x := by omega
  have hmul := (Nat.le_div_iff_mul_le hx).1 hle
  rw [Nat.add_mul, Nat.mul_comm] at hmul
  omega

variable {t a : Timer} {now : Nat}

theorem x_pos (h : t.active = true) : 0 < t.x := by
  simp only [active, Bool.and_eq_true, decide_eq_true_eq] at h
  omega

/-- A cycle: the schedule delivers what the accumulator does. -/
theorem Tracks.tick (h : Tracks now t a) :
    (t.due (now + 1)).1 = a.tick.1 ∧ Tracks (now + 1) (t.due (now + 1)).2 a.tick.2 := by
  have hx : a.x = t.x := by unfold x; rw [h.reg]
  have hy : a.y = t.y := by unfold y; rw [h.reg]
  have hactive : a.active = t.active := by unfold active; rw [hx, hy]
  unfold due Timer.tick
  rw [hactive]
  cases hact : t.active with
  | false => exact ⟨rfl, h.reg, h.still, fun h => absurd (hact.symm.trans h) nofun⟩
  | true =>
    obtain ⟨hlast, hnext, hacc, hfirst⟩ := h.runs hact
    have hsum : a.acc + a.x = t.acc + t.x * (now + 1 - t.last) := by
      rw [hacc, hx, Nat.succ_sub hlast, Nat.mul_succ, Nat.add_assoc]
    rw [hsum, hy]
    by_cases hdue : t.next ≤ now + 1
    · rw [if_pos (by simpa using hdue)]
      refine ⟨rfl, h.reg, fun h => absurd (hact.symm.trans h) nofun, fun _ =>
        ⟨Nat.le_refl _, ?_, by simp, fun n hn => lt_of_lt_div (x_pos hact) hn⟩⟩
      exact Nat.lt_add_of_pos_right (Nat.lt_of_lt_of_le Nat.one_pos (Nat.le_max_left ..))
    · have hlt := hfirst (now + 1) (by omega) (by omega)
      rw [if_neg (by simpa using hdue), Nat.div_eq_of_lt hlt, Nat.mod_eq_of_lt hlt]
      exact ⟨rfl, h.reg, fun h => absurd (hact.symm.trans h) nofun, fun _ =>
        ⟨Nat.le_succ_of_le hlast, Nat.lt_of_not_le hdue, rfl, hfirst⟩⟩

/-- A write to a timer that stands still, or that has just been brought up to date. -/
theorem Tracks.write (h : Tracks now t a) (hup : t.active = false ∨ t.last = now) (val : Word) :
    Tracks now ({ t with reg := val }.recalc now) { a with reg := val } := by
  have hacc : a.acc = t.acc := by
    cases hact : t.active with
    | false => exact h.still hact
    | true =>
      rw [(h.runs hact).2.2.1, hup.resolve_left (by rw [hact]; nofun), Nat.sub_self, Nat.mul_zero,
        Nat.add_zero]
  unfold recalc
  split
  next hact =>
    refine ⟨rfl, fun _ => hacc, fun _ => ⟨Nat.le_refl _, ?_, by simpa using hacc, fun n hn hlt => ?_⟩⟩
    · exact Nat.lt_add_of_pos_right (by split <;> omega)
    · split at hlt
      · exact lt_of_lt_div (x_pos hact) hn hlt
      · exact absurd hn (Nat.not_lt.2 (Nat.le_of_lt_succ hlt))
  next hact => exact ⟨rfl, fun _ => hacc, fun h => absurd h hact⟩

end Timer

namespace Dma

variable (v : Variant) {i : Nat}

/-- The pulses of timer `i` go to its listeners, one by one. -/
theorem fireTimer_eq (d : Dma) (now i : Nat) : fireTimer v now d i =
    { (pulseTimer v i)^[((d.timers i).due now).1] d with
      timers := update d.timers i ((d.timers i).due now).2 } := by
  unfold fireTimer Timer.due
  simp only
  split
  · rw [(pulses v d i _).2]
  · simp

theorem timers_fireDue (d : Dma) (now : Nat) (hi : i < 4) :
    (d.fireDue v now).timers i = ((d.timers i).due now).2 := by
  simp only [fireDue, show List.range 4 = [0, 1, 2, 3] from rfl, List.foldl_cons, List.foldl_nil,
    fireTimer_eq]
  obtain rfl | rfl | rfl | rfl : i = 0 ∨ i = 1 ∨ i = 2 ∨ i = 3 := by omega
  all_goals simp

theorem timerNextMin_le (d : Dma) (hi : i < 4) (h : (d.timers i).active = true) :
    d.timerNextMin ≤ (d.timers i).next := by
  have hmin : ∀ (l : List Nat) (b : Nat), l.foldl (fun n i => min n (d.timers i).next) b ≤ b ∧
      ∀ i ∈ l, l.foldl (fun n i => min n (d.timers i).next) b ≤ (d.timers i).next := by
    intro l
    induction l with
    | nil => exact fun b => ⟨Nat.le_refl b, nofun⟩
    | cons j l ih =>
      intro b
      obtain ⟨hb, hl⟩ := ih (min b (d.timers j).next)
      refine ⟨Nat.le_trans hb (Nat.min_le_left ..), fun i hi => ?_⟩
      rcases List.mem_cons.1 hi with rfl | hi
      · exact Nat.le_trans hb (Nat.min_le_right ..)
      · exact hl i hi
  exact (hmin d.timersActive _).2 i (List.mem_filter.2 ⟨List.mem_range.2 hi, h⟩)

/-- The register of a timer. -/
theorem regWrite_timer (d : Dma) (now : Nat) (hi : i < 4) (val : Word) (raw : Bool) :
    d.regWrite v now (v.offTimer0 + 4 * i) val raw = d.timerWrite now i val := by
  unfold regWrite
  rw [if_neg, if_neg, if_neg, if_pos]
  · congr 1
    omega
  · omega
  all_goals
    revert i
    cases v <;> decide

end Dma

/-! ## Runs of writes and cycles -/

namespace Pacing

inductive Event where
  /-- A write to the register of timer `i`. -/
  | write (i : Nat) (val : Word)
  | tick
  /-- Several cycles at once. -/
  | skip (n : Nat)

structure State where
  dma : Dma
  cycle : Nat := 0
  /-- The pulses of the four timers, cycle by cycle. -/
  pulses : List (List Nat) := []

variable (v : Variant)

/-- The timers' part of `step`. -/
def State.tick (s : State) : State :=
  if s.dma.timersActive ≠ [] ∧ s.dma.timerNextMin ≤ s.cycle + 1 then
    { dma := s.dma.fireDue v (s.cycle + 1)
      cycle := s.cycle + 1
      pulses := s.pulses ++ [(List.range 4).map fun i => ((s.dma.timers i).due (s.cycle + 1)).1] }
  else { s with cycle := s.cycle + 1, pulses := s.pulses ++ [[0, 0, 0, 0]] }

def step (s : State) : Event → Option State
  | .write i val =>
    if i < 4 then
      some { s with dma := s.dma.regWrite v s.cycle (v.offTimer0 + 4 * i) val (val ≠ 0) }
    else none
  | .tick => some (s.tick v)
  | .skip n =>
    if s.dma.timersActive = [] ∨ s.cycle + n < s.dma.timerNextMin then
      some { s with cycle := s.cycle + n, pulses := s.pulses ++ List.replicate n [0, 0, 0, 0] }
    else none

/-- No timer is written in mid-period. -/
def Kept (s : State) : Event → Prop
  | .write i _ => (s.dma.timers i).active = false ∨ (s.dma.timers i).last = s.cycle
  | _ => True

instance (s : State) (e : Event) : Decidable (Kept s e) := by
  cases e <;> unfold Kept <;> infer_instance

/-- The accumulators, stepped every cycle. -/
structure Reference where
  timers : Nat → Timer := fun _ => {}
  pulses : List (List Nat) := []

def Reference.tick (r : Reference) : Reference where
  timers := fun i => (r.timers i).tick.2
  pulses := r.pulses ++ [(List.range 4).map fun i => (r.timers i).tick.1]

def Reference.step (r : Reference) : Event → Reference
  | .write i val => { r with timers := update r.timers i { r.timers i with reg := val } }
  | .tick => r.tick
  | .skip n => Reference.tick^[n] r

structure Agree (s : State) (r : Reference) : Prop where
  pulses : s.pulses = r.pulses
  tracks : ∀ i < 4, (s.dma.timers i).Tracks s.cycle (r.timers i)

variable {v} {s : State} {r : Reference}

theorem Agree.tick (h : Agree s r) : Agree (s.tick v) r.tick := by
  have hticks := fun i hi => (h.tracks i hi).tick
  unfold State.tick
  split
  · refine ⟨?_, fun i hi => ?_⟩
    · show s.pulses ++ _ = r.pulses ++ _
      rw [h.pulses, List.map_congr_left fun i hi => (hticks i (List.mem_range.1 hi)).1]
    · simp only [Dma.timers_fireDue v s.dma _ hi]
      exact (hticks i hi).2
  next hcalm =>
    have hdue : ∀ i < 4, (s.dma.timers i).due (s.cycle + 1) = (0, s.dma.timers i) := by
      intro i hi
      refine if_neg fun hdue => hcalm ?_
      rw [Bool.and_eq_true, decide_eq_true_eq] at hdue
      exact ⟨List.ne_nil_of_mem (List.mem_filter.2 ⟨List.mem_range.2 hi, hdue.1⟩),
        Nat.le_trans (s.dma.timerNextMin_le hi hdue.1) hdue.2⟩
    refine ⟨?_, fun i hi => ?_⟩
    · show s.pulses ++ _ = r.pulses ++ _
      rw [h.pulses, List.map_congr_left fun i hi => (hticks i (List.mem_range.1 hi)).1.symm,
        List.map_congr_left fun i hi => congrArg Prod.fst (hdue i (List.mem_range.1 hi))]
      rfl
    · have := (hticks i hi).2
      rwa [hdue i hi] at this

theorem Agree.skip (h : Agree s r) (n : Nat)
    (hn : s.dma.timersActive = [] ∨ s.cycle + n < s.dma.timerNextMin) :
    Agree { s with cycle := s.cycle + n, pulses := s.pulses ++ List.replicate n [0, 0, 0, 0] }
      (Reference.tick^[n] r) := by
  induction n with
  | zero => simpa using h
  | succ n ih =>
    have hone := (ih (hn.imp_right Nat.lt_of_succ_lt)).tick (v := .rp2040)
    rw [iterate_succ_apply']
    rw [State.tick, if_neg] at hone
    · simpa [List.replicate_succ', Nat.add_assoc] using hone
    · rintro ⟨hactive, hmin⟩
      rcases hn with hn | hn
      · exact hactive hn
      · exact absurd hn (Nat.not_lt.2 hmin)

theorem Agree.step {s' : State} {e : Event} (h : Agree s r) (hk : Kept s e)
    (hs : step v s e = some s') : Agree s' (r.step e) := by
  cases e with
  | write i val =>
    obtain ⟨hi, hs⟩ := Option.ite_none_right_eq_some.1 hs
    cases hs
    rw [Dma.regWrite_timer v _ _ hi]
    refine ⟨h.pulses, fun j hj => ?_⟩
    by_cases hji : j = i
    · subst hji
      simpa [Dma.timerWrite, Reference.step] using (h.tracks j hj).write hk val
    · simpa [Dma.timerWrite, Reference.step, update_of_ne hji] using h.tracks j hj
  | tick =>
    cases hs
    exact h.tick
  | skip n =>
    obtain ⟨hn, hs⟩ := Option.ite_none_right_eq_some.1 hs
    cases hs
    exact h.skip n hn

end Pacing

end DmaCpu.Emu
