-- SUMMARY: Iterating a step function that may fail.
import Mathlib.Tactic.Common

/-!
# Iteration

`iter f n s` is `n` steps of a partial step function from `s`; the first failure
is the result.
-/
namespace DmaCpu

variable {σ ε : Type*} {f : σ → Except ε σ} {s t : σ} {e : ε} {m n : Nat}

def iter (f : σ → Except ε σ) : Nat → σ → Except ε σ
  | 0, s => .ok s
  | n + 1, s => (f s).bind (iter f n)

@[simp] theorem iter_zero : iter f 0 s = .ok s := rfl

theorem iter_succ : iter f (n + 1) s = (f s).bind (iter f n) := rfl

theorem iter_one : iter f 1 s = f s := by
  rw [iter_succ]
  cases f s <;> rfl

theorem iter_add : iter f (m + n) s = (iter f m s).bind (iter f n) := by
  induction m generalizing s with
  | zero => rw [Nat.zero_add]; rfl
  | succ m ih =>
    rw [Nat.succ_add, iter_succ, iter_succ]
    cases f s with
    | error e => rfl
    | ok u => exact ih

theorem iter_add_of_ok (h : iter f m s = .ok t) : iter f (m + n) s = iter f n t := by
  rw [iter_add, h]
  rfl

theorem iter_add_of_error (h : iter f m s = .error e) : iter f (m + n) s = .error e := by
  rw [iter_add, h]
  rfl

/-- Every state up to the one that stops passes `p`, and there are at most `n` of them. -/
def passes (f : σ → Except ε σ) (p : σ → Bool) : Nat → σ → Bool
  | 0, _ => false
  | n + 1, s => p s && match f s with
    | .ok t => passes f p n t
    | .error _ => true

theorem of_passes {p : σ → Bool} (h : passes f p m s = true) (hiter : iter f n s = .ok t) :
    p t = true := by
  induction n generalizing m s with
  | zero =>
    cases hiter
    cases m with
    | zero => cases h
    | succ m => exact ((Bool.and_eq_true ..).mp h).1
  | succ n ih =>
    cases m with
    | zero => cases h
    | succ m =>
      have hrest := ((Bool.and_eq_true ..).mp h).2
      rw [iter_succ] at hiter
      cases hf : f s with
      | error e => rw [hf] at hiter; cases hiter
      | ok u =>
        rw [hf] at hiter hrest
        exact ih hrest hiter

theorem eq_error_of_map {α β ε : Type*} {x : Except ε α} {f : α → β} {e : ε}
    (h : x.map f = .error e) : x = .error e := by
  cases x with
  | error e' => exact congrArg Except.error (Except.error.inj h)
  | ok a => cases h

/-- Two runs kept together by `R`: whenever some point of the second matches a
    point of the first, a later one matches the next. Then there is a schedule of
    matching points. -/
theorem exists_schedule {R : Nat → Nat → Prop} {live : Nat → Prop} (h₀ : R 0 0)
    (hnext : ∀ n k, R n k → ∃ k', R (n + 1) k' ∧ (live n → k < k')) :
    ∃ t : Nat → Nat, t 0 = 0 ∧ ∀ n, R n (t n) ∧ (live n → t n < t (n + 1)) := by
  choose! next hR hlt using hnext
  have hall : ∀ n, R n (Nat.rec 0 next n) := by
    intro n
    induction n with
    | zero => exact h₀
    | succ n ih => exact hR n _ ih
  exact ⟨fun n => Nat.rec 0 next n, rfl, fun n => ⟨hall n, hlt n _ (hall n)⟩⟩

end DmaCpu
