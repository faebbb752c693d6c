-- SUMMARY: The state the loader leaves behind, and the states that runs reach from it.
import DmaCpu.Lib.Run
import DmaCpu.Xv6.Trail

/-!
# Boot

The loader places some programs, each in an image of its own, and patches the
kernel's configuration words; everything else starts out zero.
-/
namespace DmaCpu.Xv6

/-- A program that the loader places in a process slot. -/
structure Loaded where
  pid : Word
  ppid : Word := 0
  deriving DecidableEq

/-- What the loader patches. The program in slot `curr` runs first. -/
structure Config where
  prog : Slot → Option Loaded
  curr : Slot
  loaded : (prog curr).isSome
  nextpid : Word
  initpid : Word := 0
  fgpid : Word := 0
  consOn : Bool := false
  dmaDisk : Bool := true
  arena : Word := 0
  arenaEnd : Word := 0
  mail : Img → Mail := fun _ => {}
  r0 : Img → Word := fun _ => 0
  mem : Img → Word → Byte := fun _ _ => 0

namespace Config

def boot (c : Config) : Kernel where
  proc i :=
    match c.prog i with
    | none => {}
    | some p => {
        pid := p.pid
        ppid := p.ppid
        img := i.val
        state := if i = c.curr then .running else .runnable }
  curr := c.curr
  nextpid := c.nextpid
  initpid := c.initpid
  fgpid := c.fgpid
  consOn := c.consOn
  dmaDisk := c.dmaDisk
  arena := c.arena
  arenaEnd := c.arenaEnd
  mail := c.mail
  r0 := c.r0
  mem := c.mem
  pipes pi := { stream := pi.val }

theorem boot_ready_or_unused (c : Config) (i : Slot) :
    ((c.boot.proc i).state = .unused) ∨ (c.boot.Ready i ∧ c.boot.img i = i.val) := by
  cases h : c.prog i with
  | none => exact .inl (by simp [boot, h])
  | some p =>
    refine .inr ⟨?_, by simp [boot, Kernel.img, h]⟩
    by_cases hi : i = c.curr
    · exact .inr (by simp [boot, h, ← hi])
    · exact .inl (by simp [boot, h, hi])

theorem boot_ready (c : Config) : c.boot.Ready c.boot.curr := by
  obtain ⟨p, hp⟩ := Option.isSome_iff_exists.mp c.loaded
  exact .inr (by simp [boot, hp])

theorem boot_not_sleeping (c : Config) (i : Slot) : (c.boot.proc i).state ≠ .sleeping := by
  rcases c.boot_ready_or_unused i with h | ⟨h | h, _⟩ <;> simp [h]

theorem boot_turn (c : Config) : c.boot.Turn where
  user _ _ := c.boot_ready
  syscall h := by simp [boot] at h
  tick h := by simp [boot] at h
  leaving next h := by simp [boot] at h
  published h := by simp [boot] at h

end Config

/-- The current process makes a system call and the kernel returns. -/
def Event.call (num : Word) (a0 a1 a2 : Word := 0) (a : Answer := {}) : List Event :=
  [.trap { num, a0, a1, a2 }, .handler a, .publish, .leave]

/-- A tick during which these bytes arrive on the console. -/
def Event.quantum (rx : List Byte) : List Event :=
  [.tick, .fire { rx }, .handler {}, .publish, .leave]

namespace Kernel

/-- If this event is the handler of a system call, it meets `C`. -/
def OnCall (C : Kernel → Answer → Prop) (k : Kernel) : Event → Prop
  | .handler a => k.phase = .entered .syscall → C k a
  | _ => True

instance {C : Kernel → Answer → Prop} [∀ k a, Decidable (C k a)] (k : Kernel) (e : Event) :
    Decidable (k.OnCall C e) :=
  match e with
  | .handler _ => inferInstanceAs (Decidable (_ → _))
  | .user .. | .trap _ | .tick | .fire _ | .drain _ | .publish | .leave => inferInstanceAs (Decidable True)

/-- The states that are reached from a boot by events that all meet `ok`. -/
def Reachable (ok : Kernel → Event → Prop) (k : Kernel) : Prop :=
  ∃ c : Config, Run.Reaches Kernel.step ok c.boot k

/-- An invariant of every step holds in every reachable state, next to `Turn`. -/
theorem Reachable.invariant {ok : Kernel → Event → Prop} {I : Kernel → Prop} {k : Kernel}
    (h0 : ∀ c : Config, I c.boot)
    (hI : ∀ k e k', k.Turn → ok k e → k.step e = some k' → I k → I k') (h : Reachable ok k) :
    k.Turn ∧ I k := by
  obtain ⟨c, hc⟩ := h
  refine hc.invariant (I := fun k => k.Turn ∧ I k) ?_ ⟨c.boot_turn, h0 c⟩
  rintro k e k' hok hs ⟨ht, hi⟩
  exact ⟨ht.step hs, hI k e k' ht hok hs hi⟩

/-- A reachable state that running a list of events finds. -/
theorem exists_reachable {ok : Kernel → Event → Prop} [∀ k e, Decidable (ok k e)]
    {P : Kernel → Prop} [DecidablePred P] (c : Config) (es : List Event)
    (h : (Run.after Kernel.step ok c.boot es).any (fun k => decide (P k)) = true) :
    ∃ k, Reachable ok k ∧ P k := by
  obtain ⟨k, hk, hp⟩ := Run.exists_reaches es h
  exact ⟨k, ⟨c, hk⟩, hp⟩

end Kernel

end DmaCpu.Xv6
