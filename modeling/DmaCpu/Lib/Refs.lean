-- SUMMARY: Reference counts: a table of counters against the holders that refer to its entries.
import Mathlib.Algebra.BigOperators.Group.Finset.Piecewise
import Mathlib.Data.Fintype.Prod

/-!
# Reference counts

`own i` is the entry that holder `i` refers to. The counters `ref` are exact if
every entry's counter is the number of its holders; an entry is then free
exactly when nobody holds it.
-/
namespace DmaCpu.Refs

open Function

variable {ι φ : Type} [Fintype ι] [DecidableEq φ]

/-- The number of holders of `f`. -/
def count (own : ι → Option φ) (f : φ) : Nat := (Finset.univ.filter fun i => own i = some f).card

def Exact (ref : φ → Nat) (own : ι → Option φ) : Prop := ∀ f, ref f = count own f

variable {ref : φ → Nat} {own : ι → Option φ} {i : ι} {f : φ}

theorem count_eq_zero_iff : count own f = 0 ↔ ∀ i, own i ≠ some f := by
  simp [count, Finset.filter_eq_empty_iff]

theorem exact_empty : Exact (fun _ => 0) (fun _ : ι => (none : Option φ)) := by
  intro f
  rw [eq_comm, count_eq_zero_iff]
  exact fun _ h => nomatch h

theorem Exact.eq_zero_iff (h : Exact ref own) : ref f = 0 ↔ ∀ i, own i ≠ some f := by
  rw [h f, count_eq_zero_iff]

theorem Exact.pos (h : Exact ref own) (hi : own i = some f) : 0 < ref f :=
  Nat.pos_of_ne_zero fun hz => h.eq_zero_iff.mp hz i hi

variable [DecidableEq ι]

theorem count_update (own : ι → Option φ) (i : ι) (o : Option φ) (f : φ) :
    count (update own i o) f + (if own i = some f then 1 else 0) =
      count own f + if o = some f then 1 else 0 := by
  have hsum (own : ι → Option φ) : count own f =
      (if own i = some f then 1 else 0) +
        ∑ j ∈ Finset.univ.erase i, if own j = some f then 1 else 0 := by
    rw [count, Finset.card_filter]
    exact (Finset.add_sum_erase _ _ (Finset.mem_univ i)).symm
  have hrest : (∑ j ∈ Finset.univ.erase i, if update own i o j = some f then 1 else 0) =
      ∑ j ∈ Finset.univ.erase i, if own j = some f then 1 else 0 := by
    refine Finset.sum_congr rfl fun j hj => ?_
    rw [update_of_ne (Finset.ne_of_mem_erase hj)]
  rw [hsum (update own i o), hsum own, update_self]
  omega

namespace Exact

/-- A holder that had nothing takes a reference. -/
theorem acquire (h : Exact ref own) (hi : own i = none) (f : φ) :
    Exact (update ref f (ref f + 1)) (update own i (some f)) := by
  intro g
  have hcount := count_update own i (some f) g
  rw [hi, if_neg (nofun : (none : Option φ) ≠ some g)] at hcount
  by_cases hg : g = f
  · subst hg
    rw [if_pos rfl] at hcount
    rw [update_self, h g, ← hcount, Nat.add_zero]
  · rw [if_neg fun he => hg (Option.some.inj he).symm] at hcount
    rw [update_of_ne hg, h g]
    omega

/-- A holder drops its reference. -/
theorem release (h : Exact ref own) (hi : own i = some f) :
    Exact (update ref f (ref f - 1)) (update own i none) := by
  intro g
  have hcount := count_update own i none g
  rw [hi, if_neg (nofun : (none : Option φ) ≠ some g)] at hcount
  by_cases hg : g = f
  · subst hg
    rw [if_pos rfl] at hcount
    rw [update_self, h g]
    omega
  · rw [if_neg fun he => hg (Option.some.inj he).symm] at hcount
    rw [update_of_ne hg, h g]
    omega

end Exact

end DmaCpu.Refs
