-- SUMMARY: What a machine with choices reaches whatever it chooses, and the rules to prove it.
import Mathlib.Tactic.Common

/-!
# Eventually

A machine is given by what each of its steps guarantees: `step s P` says that the
machine can go on from `s` and that every state it may be in afterwards satisfies
`P`. `Eventually step Q s` says that from `s` it gets, whatever it chooses, to a
state that satisfies `Q`.
-/
namespace DmaCpu

inductive Eventually {σ : Type*} (step : σ → (σ → Prop) → Prop) (Q : σ → Prop) : σ → Prop where
  | done {s : σ} : Q s → Eventually step Q s
  | next {s : σ} (P : σ → Prop) : step s P → (∀ t, P t → Eventually step Q t) →
      Eventually step Q s

namespace Eventually

variable {σ : Type*} {step : σ → (σ → Prop) → Prop} {Q R : σ → Prop} {s : σ}

/-- Two things a machine reaches where it stops are reached together. -/
theorem meet (hstep : ∀ s P P', step s P → step s P' → ∃ t, P t ∧ P' t)
    (hstop : ∀ t, Q t ∨ R t → ∀ P, ¬step t P) (hQ : Eventually step Q s)
    (hR : Eventually step R s) : ∃ t, Q t ∧ R t := by
  induction hQ with
  | done hQ =>
    cases hR with
    | done hR => exact ⟨_, hQ, hR⟩
    | next P hs _ => exact absurd hs (hstop _ (.inl hQ) P)
  | next P hs _ ih =>
    cases hR with
    | done hR => exact absurd hs (hstop _ (.inr hR) P)
    | next P' hs' hR =>
      obtain ⟨t, ht, ht'⟩ := hstep _ P P' hs hs'
      exact ih t ht (hR t ht')

end Eventually

end DmaCpu
