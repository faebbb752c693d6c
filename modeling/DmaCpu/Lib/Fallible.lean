-- SUMMARY: When a computation that can fail succeeds.
import Mathlib.Tactic.Common

/-!
# Computations that can fail

A sequence of fallible steps succeeds if every step does. These rules take such a
computation apart, one step at a time.
-/
namespace DmaCpu.Fallible

variable {ε α β : Type*}

variable {x : Except ε α}

section

variable {f : α → Except ε β}

theorem bind_eq_ok {b : β} :
    x.bind f = .ok b ↔ ∃ a, x = .ok a ∧ f a = .ok b := by
  cases x with
  | error e => exact ⟨nofun, fun ⟨_, h, _⟩ => nomatch h⟩
  | ok a => exact ⟨fun h => ⟨a, rfl, h⟩, fun ⟨_, h, h'⟩ => Except.ok.inj h ▸ h'⟩

theorem bind_eq_error {e : ε} :
    x.bind f = .error e ↔ x = .error e ∨ ∃ a, x = .ok a ∧ f a = .error e := by
  cases x <;> simp [Except.bind]

theorem toOption_eq_some {a : α} : x.toOption = some a ↔ x = .ok a := by
  cases x <;> simp [Except.toOption]

theorem map_eq_ok {f : α → β} {b : β} : x.map f = .ok b ↔ ∃ a, x = .ok a ∧ f a = b := by
  cases x with
  | error e => exact ⟨nofun, fun ⟨_, h, _⟩ => nomatch h⟩
  | ok a => exact ⟨fun h => ⟨a, rfl, Except.ok.inj h⟩, fun ⟨_, h, h'⟩ => by cases h; exact congrArg _ h'⟩

theorem map_bind {γ : Type*} {g : β → γ} :
    (x.bind f).map g = x.bind fun a => (f a).map g := by
  cases x <;> rfl

/-- If it succeeds then with such a result. -/
def Ensures (x : Except ε α) (P : α → Prop) : Prop := ∀ a, x = .ok a → P a

theorem ensures_ok {a : α} {P : α → Prop} (h : P a) : Ensures (.ok a : Except ε α) P :=
  fun _ heq => Except.ok.inj heq ▸ h

theorem ensures_bind {P : β → Prop} (h : ∀ a, Ensures (f a) P) :
    Ensures (x.bind f) P := by
  intro b hb
  obtain ⟨a, -, hfa⟩ := bind_eq_ok.mp hb
  exact h a b hfa

end

/-- It succeeds, with such a result. -/
def okAnd (x : Except ε α) (p : α → Bool) : Bool :=
  match x with
  | .ok a => p a
  | .error _ => false

theorem okAnd_eq_true {p : α → Bool} : okAnd x p = true ↔ ∃ a, x = .ok a ∧ p a = true := by
  cases x with
  | error e => exact ⟨nofun, fun ⟨_, h, _⟩ => nomatch h⟩
  | ok a => exact ⟨fun h => ⟨a, rfl, h⟩, fun ⟨_, h, h'⟩ => Except.ok.inj h ▸ h'⟩

section

variable {f : β → α → Except ε β} {b c : β}

theorem foldlM_cons_eq_ok {a : α} {as : List α} :
    (a :: as).foldlM f b = .ok c ↔ ∃ b', f b a = .ok b' ∧ as.foldlM f b' = .ok c := by
  exact bind_eq_ok

theorem foldlM_append_eq_ok {as bs : List α} :
    (as ++ bs).foldlM f b = .ok c ↔ ∃ b', as.foldlM f b = .ok b' ∧ bs.foldlM f b' = .ok c := by
  rw [List.foldlM_append]
  exact bind_eq_ok

end

end DmaCpu.Fallible
