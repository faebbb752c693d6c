-- SUMMARY: Whole runs: a machine that keeps step with a sequential interpreter.
import DmaCpu.Emu.Rewind

/-!
# Runs

A machine stands at an interpreter's state, and comes to the next one in one or
more steps. By induction it passes through all the states of a run, whatever the
program makes of its own words.
-/
namespace DmaCpu.Emu.Sequential

variable {δ : Type} {B : Board δ} {F : Front} {i : Nat} {f e : Channel} {fetch : Nat}

/-- What a machine and an interpreter have in common between instructions. -/
structure Agrees (fetch : Nat) (m : Machine δ) (S : State δ) : Prop where
  mem : m.mem = S.mem
  dev : m.dev = S.dev
  cycle : m.cycle = S.cycle
  sniffCtrl : m.dma.sniffCtrl = S.sniffCtrl
  sniffData : m.dma.sniffData = S.sniffData
  pc : (m.dma.ch fetch).readAddr = S.pc

/-- The machine has come to where the interpreter is. -/
def Reaches (fetch : Nat) (out : Except Fault (Machine δ)) : Except (Stop δ) (State δ) → Prop
  | .ok S => ∃ m, out = .ok m ∧ Agrees fetch m S
  | .error (.halt S) => ∃ m, out = .ok m ∧ Agrees fetch m S ∧ ∀ j, (m.dma.ch j).busy = false
  | .error (.fault f) => out = .error f

/-- The same, where between instructions more is known of the machine. -/
def Outcome (At : Machine δ → State δ → Prop) (fetch : Nat) (out : Except Fault (Machine δ)) :
    Except (Stop δ) (State δ) → Prop
  | .ok S => ∃ m, out = .ok m ∧ At m S
  | .error (.halt S) => ∃ m, out = .ok m ∧ Agrees fetch m S ∧ ∀ j, (m.dma.ch j).busy = false
  | .error (.fault f) => out = .error f

variable {At : Machine δ → State δ → Prop}

theorem Outcome.reaches {out : Except Fault (Machine δ)}
    {r : Except (Stop δ) (State δ)} (hat : ∀ m S, At m S → Agrees fetch m S)
    (h : Outcome At fetch out r) : Reaches fetch out r := by
  match r with
  | .ok S =>
    obtain ⟨m, hm, hS⟩ := h
    exact ⟨m, hm, hat m S hS⟩
  | .error (.halt S) => exact h
  | .error (.fault f) => exact h

variable {m : Machine δ} {S : State δ}

theorem agrees_of_core (hv : F.Valid B.v i) (h : m.core = S.core F i f e)
    (hf : f.readAddr = S.pc) : Agrees F.fetch m S := by
  have hdma : m.dma.erase = S.dma F i f e := congrArg Core.dma h
  refine ⟨congrArg Core.mem h, congrArg Core.dev h, congrArg Core.cycle h, ?_, ?_, ?_⟩
  · exact congrArg Dma.sniffCtrl hdma
  · exact congrArg Dma.sniffData hdma
  · have hch := congrArg (fun d : Dma => (d.ch F.fetch).readAddr) hdma
    simp only [S.dma_fetch hv.fetch_ne, hf] at hch
    exact hch

/-- With fetch and the running channel at rest no channel is busy. -/
theorem idle_of_core (hv : F.Valid B.v i) (hS : S.Calm F i) (hf : f.busy = false)
    (he : e.busy = false) (h : m.core = S.core F i f e) (j : Nat) : (m.dma.ch j).busy = false := by
  have hch : (m.dma.ch j).busy = ((S.dma F i f e).ch j).busy :=
    congrArg (fun c : Core δ => (c.dma.ch j).busy) h
  rw [hch]
  by_cases hjf : j = F.fetch
  · subst hjf
    rw [S.dma_fetch hv.fetch_ne]
    exact hf
  by_cases hji : j = i
  · subst hji
    rw [S.dma_run]
    exact he
  rw [S.dma_other hjf hji]
  exact hS.idle j hjf hji

/-- A run of the interpreter is a run of the machine, instruction by instruction. -/
theorem exists_run {exec : State δ → Except (Stop δ) (State δ)} {Good : State δ → Prop} (hstep : ∀ m S, At m S → Good S →
      ∃ k, 0 < k ∧ Outcome At fetch (iter (Machine.next B) k m) (exec S))
    (hat : At m S) (hgood : ∀ n S', iter exec n S = .ok S' → Good S') :
    ∃ t : Nat → Nat, t 0 = 0 ∧ ∀ n,
      Outcome At fetch (iter (Machine.next B) (t n) m) (iter exec n S) ∧
        ((∃ S', iter exec n S = .ok S') → t n < t (n + 1)) := by
  apply exists_schedule
    (R := fun n k => Outcome At fetch (iter (Machine.next B) k m) (iter exec n S))
  · exact ⟨m, rfl, hat⟩
  · intro n k hout
    cases hiter : iter exec n S with
    | error stop =>
      rw [hiter] at hout
      refine ⟨k, ?_, fun ⟨_, h⟩ => by cases h⟩
      rw [iter_add_of_error hiter]
      exact hout
    | ok S' =>
      rw [hiter] at hout
      obtain ⟨m', hm', hat'⟩ := hout
      obtain ⟨j, hj, hnext⟩ := hstep m' S' hat' (hgood n S' hiter)
      refine ⟨k + j, ?_, fun _ => Nat.lt_add_of_pos_right hj⟩
      rw [iter_add_of_ok hiter, iter_one, iter_add_of_ok hm']
      exact hnext

end DmaCpu.Emu.Sequential
