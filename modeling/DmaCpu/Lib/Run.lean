-- SUMMARY: Runs of an event machine whose events meet a condition, and invariants over them.
import Mathlib.Tactic.Common

/-!
# Runs

A machine is a partial step function on states and events. `Reaches step ok s t`
says that some sequence of events leads from `s` to `t` and that every event
meets the condition `ok` in the state in which it happens. What one step
preserves, a run preserves.
-/
namespace DmaCpu.Run

variable {S E : Type*} {step : S → E → Option S} {ok ok' : S → E → Prop} {s t u : S}

inductive Reaches (step : S → E → Option S) (ok : S → E → Prop) (s : S) : S → Prop where
  | refl : Reaches step ok s s
  | tail {t u : S} (e : E) : Reaches step ok s t → ok t e → step t e = some u →
      Reaches step ok s u

theorem Reaches.trans (h : Reaches step ok s t) (h' : Reaches step ok t u) :
    Reaches step ok s u := by
  induction h' with
  | refl => exact h
  | tail e _ hok hstep ih => exact .tail e ih hok hstep

/-- The invariant rule. -/
theorem Reaches.invariant {I : S → Prop}
    (hI : ∀ t e u, ok t e → step t e = some u → I t → I u)
    (h : Reaches step ok s t) (h0 : I s) : I t := by
  induction h with
  | refl => exact h0
  | tail e _ hok hstep ih => exact hI _ e _ hok hstep ih

/-- The state after a list of events, if all of them can happen and meet `ok`. -/
def after (step : S → E → Option S) (ok : S → E → Prop) [∀ s e, Decidable (ok s e)] :
    S → List E → Option S
  | s, [] => some s
  | s, e :: es => if ok s e then (step s e).bind (after step ok · es) else none

theorem Reaches.of_after [∀ s e, Decidable (ok s e)] {es : List E}
    (h : after step ok s es = some t) : Reaches step ok s t := by
  induction es generalizing s with
  | nil =>
    cases h
    exact .refl
  | cons e es ih =>
    rw [after] at h
    split at h
    next hok =>
      obtain ⟨u, hu, ht⟩ := Option.bind_eq_some_iff.mp h
      exact (Reaches.refl.tail e hok hu).trans (ih ht)
    next => cases h

/-- A state with a decidable property, found by running a list of events. -/
theorem exists_reaches [∀ s e, Decidable (ok s e)] {P : S → Prop} [DecidablePred P] (es : List E)
    (h : (after step ok s es).any (fun t => decide (P t)) = true) :
    ∃ t, Reaches step ok s t ∧ P t := by
  cases ht : after step ok s es with
  | none => simp [ht] at h
  | some t => exact ⟨t, .of_after ht, by simpa [ht] using h⟩

end DmaCpu.Run
