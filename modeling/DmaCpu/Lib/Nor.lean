-- SUMMARY: NOR flash: erasing, programming, and what a power cut leaves behind.
import Mathlib.Data.BitVec

/-!
# NOR flash

Flash is erased to ones and programming only clears bits. A power cut inside an
operation leaves each bit as it was or as the operation was to leave it; `Crash`
is a cut anywhere in a sequence of operations.
-/
namespace DmaCpu.Nor

variable {w : Nat}

/-- The contents, by word address. -/
abbrev Flash (w : Nat) := Nat → BitVec w

inductive Op (w : Nat) where
  | erase (a n : Nat)
  | program (a n : Nat) (src : Nat → BitVec w)

namespace Op

/-- The words that an operation is about. -/
def Covers : Op w → Nat → Prop
  | .erase a n, x => a ≤ x ∧ x < a + n
  | .program a n _, x => a ≤ x ∧ x < a + n

def apply : Op w → Flash w → Flash w
  | .erase a n, f => fun x => if a ≤ x ∧ x < a + n then BitVec.allOnes w else f x
  | .program a n src, f => fun x => if a ≤ x ∧ x < a + n then f x &&& src (x - a) else f x

theorem apply_of_not_covers {op : Op w} {x : Nat} (h : ¬op.Covers x) (f : Flash w) :
    op.apply f x = f x := by
  cases op with
  | erase a n => exact if_neg h
  | program a n src => exact if_neg h

end Op

/-- The contents after all the operations. -/
def run (ops : List (Op w)) (f : Flash w) : Flash w := ops.foldl (fun f op => op.apply f) f

@[simp] theorem run_cons (op : Op w) (ops : List (Op w)) (f : Flash w) :
    run (op :: ops) f = run ops (op.apply f) := rfl

theorem run_append (ops ops' : List (Op w)) (f : Flash w) :
    run (ops ++ ops') f = run ops' (run ops f) := List.foldl_append

theorem run_of_not_covers {ops : List (Op w)} {x : Nat} (h : ∀ op ∈ ops, ¬op.Covers x)
    (f : Flash w) : run ops f x = f x := by
  induction ops generalizing f with
  | nil => rfl
  | cons op ops ih =>
    obtain ⟨hop, hops⟩ := List.forall_mem_cons.mp h
    rw [run_cons, ih hops, Op.apply_of_not_covers hop]

/-- `k` pages of `n` words, programmed one after the other. -/
def pages (a n k : Nat) (src : Nat → BitVec w) : List (Op w) :=
  (List.range k).map fun p => .program (a + n * p) n fun j => src (n * p + j)

theorem pages_succ (a n k : Nat) (src : Nat → BitVec w) :
    pages a n (k + 1) src = pages a n k src ++ [.program (a + n * k) n fun j => src (n * k + j)] := by
  rw [pages, List.range_succ, List.map_append]
  rfl

theorem covers_pages {a n k x : Nat} {src : Nat → BitVec w} {op : Op w}
    (hop : op ∈ pages a n k src) (hx : op.Covers x) : a ≤ x ∧ x < a + n * k := by
  obtain ⟨p, hp, rfl⟩ := List.mem_map.mp hop
  have hle : n * (p + 1) ≤ n * k := Nat.mul_le_mul_left n (List.mem_range.mp hp)
  rw [Nat.mul_succ] at hle
  obtain ⟨h₁, h₂⟩ : a + n * p ≤ x ∧ x < a + n * p + n := hx
  omega

theorem run_pages (a n k : Nat) (src : Nat → BitVec w) (f : Flash w) {x : Nat} (h : a ≤ x)
    (hx : x < a + n * k) : run (pages a n k src) f x = f x &&& src (x - a) := by
  induction k with
  | zero => omega
  | succ k ih =>
    rw [pages_succ, run_append]
    rw [Nat.mul_succ] at hx
    show (if a + n * k ≤ x ∧ x < a + n * k + n then _ else _) = _
    by_cases hlt : x < a + n * k
    · rw [if_neg (by omega)]
      exact ih hlt
    · have hsrc : n * k + (x - (a + n * k)) = x - a := by omega
      rw [if_pos (by omega), run_of_not_covers fun op hop hc => hlt (covers_pages hop hc).2,
        ← hsrc]

/-! ## Bits -/

/-- Every bit of `a` is set in `b`. -/
def Below (a b : BitVec w) : Prop := ∀ i, a.getLsbD i = true → b.getLsbD i = true

/-- Each bit of `v` is the one of `old` or the one of `new`. -/
def Torn (old new v : BitVec w) : Prop :=
  ∀ i, v.getLsbD i = old.getLsbD i ∨ v.getLsbD i = new.getLsbD i

section

variable {a b old new v : BitVec w}

theorem Below.refl (a : BitVec w) : Below a a := fun _ h => h

theorem Below.allOnes (a : BitVec w) : Below a (BitVec.allOnes w) := fun i h => by
  rw [BitVec.getLsbD_allOnes, decide_eq_true (BitVec.lt_of_getLsbD h)]

theorem Below.or (a b : BitVec w) : Below a (a ||| b) := fun i h => by
  rw [BitVec.getLsbD_or, h, Bool.true_or]

theorem Below.antisymm (h : Below a b) (h' : Below b a) : a = b := by
  apply BitVec.eq_of_getLsbD_eq
  intro i _
  exact Bool.eq_iff_iff.mpr ⟨h i, h' i⟩

theorem Torn.eq (h : Torn old old v) : v = old := by
  apply BitVec.eq_of_getLsbD_eq
  intro i _
  exact (h i).elim id id

theorem Torn.of_below (h : Below old v) : Torn old (BitVec.allOnes w) v := by
  intro i
  cases hv : v.getLsbD i with
  | false =>
    left
    cases hold : old.getLsbD i with
    | false => rfl
    | true => rw [← hv, h i hold]
  | true =>
    right
    rw [BitVec.getLsbD_allOnes, decide_eq_true (BitVec.lt_of_getLsbD hv)]

theorem Torn.below (h : Torn old new v) (hold : Below a old) (hnew : Below a new) : Below a v := by
  intro i hi
  rcases h i with hv | hv
  · rw [hv, hold i hi]
  · rw [hv, hnew i hi]

end

/-! ## Power cuts -/

/-- What a cut inside an operation may leave. -/
def Op.Cut (op : Op w) (f f' : Flash w) : Prop := ∀ x, Torn (f x) (op.apply f x) (f' x)

/-- What a cut between or inside the operations may leave. -/
inductive Crash : List (Op w) → Flash w → Flash w → Prop where
  | done (f : Flash w) : Crash [] f f
  | cut {op : Op w} {ops : List (Op w)} {f f' : Flash w} : op.Cut f f' → Crash (op :: ops) f f'
  | next {op : Op w} {ops : List (Op w)} {f f' : Flash w} :
      Crash ops (op.apply f) f' → Crash (op :: ops) f f'

variable {op : Op w} {ops ops' : List (Op w)} {f f' : Flash w} {x : Nat}

theorem Op.Cut.of_not_covers (h : op.Cut f f') (hx : ¬op.Covers x) : f' x = f x := by
  have hcut := h x
  rw [op.apply_of_not_covers hx] at hcut
  exact hcut.eq

/-- The cut may come after the last operation. -/
theorem Crash.all (ops : List (Op w)) (f : Flash w) : Crash ops f (run ops f) := by
  induction ops generalizing f with
  | nil => exact .done f
  | cons op ops ih => exact .next (ih _)

theorem Crash.of_not_covers (h : Crash ops f f') (hx : ∀ op ∈ ops, ¬op.Covers x) : f' x = f x := by
  induction h with
  | done => rfl
  | cut hcut => exact hcut.of_not_covers (hx _ List.mem_cons_self)
  | next _ ih =>
    rw [ih fun op hop => hx op (List.mem_cons_of_mem _ hop),
      Op.apply_of_not_covers (hx _ List.mem_cons_self)]

theorem Crash.append (h : Crash (ops ++ ops') f f') :
    Crash ops f f' ∨ Crash ops' (run ops f) f' := by
  induction ops generalizing f with
  | nil => exact .inr h
  | cons op ops ih =>
    cases h with
    | cut hcut => exact .inl (.cut hcut)
    | next hnext => exact (ih hnext).imp .next id

end DmaCpu.Nor
