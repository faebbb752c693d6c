-- SUMMARY: Computations that may be refused and log what they do, with a rule per construct.
import Mathlib.Tactic.Common

/-!
# Logged computations

A computation over a state that may stop with an error and that appends events to
a log. The log survives an error: it says what was done up to the refusal.
`Spec x pass val logs` describes a computation whose outcome does not depend on
the state: it returns `val` exactly when `pass` holds, and it logs `logs`. `Effect`
says what a computation that returns has done to the state.
-/
namespace DmaCpu

/-- A state and the events so far. -/
structure Journal (σ β : Type) where
  state : σ
  log : List β

abbrev Logged (σ β ε : Type) := ExceptT ε (StateM (Journal σ β))

namespace Logged

variable {σ β ε α γ : Type} {body : Nat → α → Logged σ β ε α} {α' : Type}

def exec (x : Logged σ β ε α) (j : Journal σ β) : Except ε α × Journal σ β := x.run.run j

def emits (es : List β) : Logged σ β ε Unit := modify fun j => { j with log := j.log ++ es }

def act (f : σ → σ) : Logged σ β ε Unit := modify fun j => { j with state := f j.state }

def ask (f : σ → α) : Logged σ β ε α := do return f (← get).state

def refuse (c : Prop) [Decidable c] (e : ε) : Logged σ β ε Unit :=
  if c then throw e else pure ()

/-- `k` rounds of a counting loop from `i`, with an accumulator. -/
def loop (body : Nat → α → Logged σ β ε α) : Nat → Nat → α → Logged σ β ε α
  | 0, _, a => pure a
  | k + 1, i, a => body i a >>= loop body k (i + 1)

/-! ## Execution -/

theorem exec_bind (x : Logged σ β ε α) (f : α → Logged σ β ε γ) (j : Journal σ β) :
    exec (x >>= f) j =
      match exec x j with
      | (.ok a, j') => exec (f a) j'
      | (.error e, j') => (.error e, j') := by
  show (ExceptT.bindCont f (exec x j).1).run (exec x j).2 = _
  rcases exec x j with ⟨_ | a, j'⟩ <;> rfl

theorem exec_bind_of_ok {x : Logged σ β ε α} {f : α → Logged σ β ε γ} {j : Journal σ β} {a : α}
    (h : (exec x j).1 = .ok a) : exec (x >>= f) j = exec (f a) (exec x j).2 := by
  rw [exec_bind]
  rcases hx : exec x j with ⟨_ | b, j'⟩
  · rw [hx] at h
    cases h
  · rw [hx] at h
    rw [Except.ok.inj h]

theorem exec_bind_of_error {x : Logged σ β ε α} {f : α → Logged σ β ε γ} {j : Journal σ β}
    {e : ε} (h : (exec x j).1 = .error e) : exec (x >>= f) j = (.error e, (exec x j).2) := by
  rw [exec_bind]
  rcases hx : exec x j with ⟨e' | b, j'⟩
  · rw [hx] at h
    rw [Except.error.inj h]
  · rw [hx] at h
    cases h

/-! ## Specifications -/

structure Spec (x : Logged σ β ε α) (pass : Prop) (val : α) (logs : β → Prop) : Prop where
  ok : pass → ∀ j, (exec x j).1 = .ok val
  refused : ¬pass → ∀ j, ∃ e, (exec x j).1 = .error e
  log : ∀ j e, e ∈ (exec x j).2.log ↔ e ∈ j.log ∨ logs e

namespace Spec

variable {x : Logged σ β ε α} {p q : Prop} {v : α} {L M : β → Prop}

theorem congr (h : Spec x p v L) (hp : p ↔ q) (hL : ∀ e, L e ↔ M e) : Spec x q v M where
  ok hq := h.ok (hp.mpr hq)
  refused hq := h.refused fun hp' => hq (hp.mp hp')
  log j e := (h.log j e).trans (or_congr_right (hL e))

theorem pure (a : α) : Spec (Pure.pure a : Logged σ β ε α) True a fun _ => False where
  ok _ _ := rfl
  refused h := absurd trivial h
  log _ _ := (or_false _).symm.to_iff

theorem emits (es : List β) : Spec (Logged.emits es : Logged σ β ε Unit) True () (· ∈ es) where
  ok _ _ := rfl
  refused h := absurd trivial h
  log _ _ := List.mem_append

theorem act (f : σ → σ) : Spec (Logged.act f : Logged σ β ε Unit) True () fun _ => False where
  ok _ _ := rfl
  refused h := absurd trivial h
  log _ _ := (or_false _).symm.to_iff

theorem refuse (c : Prop) [Decidable c] (e : ε) :
    Spec (Logged.refuse c e : Logged σ β ε Unit) (¬c) () fun _ => False where
  ok h _ := by rw [Logged.refuse, if_neg h]; rfl
  refused h j := ⟨e, by rw [Logged.refuse, if_pos (not_not.mp h)]; rfl⟩
  log j e' := by
    unfold Logged.refuse
    split <;> exact (or_false _).symm.to_iff

/-- What follows a refusal is not run: its events count only when the first part passes. -/
theorem bind {f : α → Logged σ β ε γ} {w : γ} (hx : Spec x p v L)
    (hf : p → Spec (f v) q w M) :
    Spec (x >>= f) (p ∧ q) w fun e => L e ∨ p ∧ M e where
  ok h j := by
    rw [exec_bind_of_ok (hx.ok h.1 j)]
    exact (hf h.1).ok h.2 _
  refused h j := by
    by_cases hp : p
    · rw [exec_bind_of_ok (hx.ok hp j)]
      exact (hf hp).refused (fun hq => h ⟨hp, hq⟩) _
    · obtain ⟨e, he⟩ := hx.refused hp j
      exact ⟨e, by rw [exec_bind_of_error he]⟩
  log j e := by
    by_cases hp : p
    · rw [exec_bind_of_ok (hx.ok hp j), (hf hp).log, hx.log, or_assoc]
      simp [hp]
    · obtain ⟨e', he⟩ := hx.refused hp j
      rw [exec_bind_of_error he, hx.log]
      simp [hp]

/-- A loop passes when every round does; a round runs when all before it passed. -/
theorem loop {p : Nat → Prop} {v : Nat → α → α}
    {L : Nat → β → Prop} (h : ∀ i a, Spec (body i a) (p i) (v i a) (L i)) (k i : Nat) (a : α) :
    Spec (Logged.loop body k i a) (∀ n, i ≤ n → n < i + k → p n)
      ((List.range' i k).foldl (fun a n => v n a) a)
      fun e => ∃ n, i ≤ n ∧ n < i + k ∧ (∀ m, i ≤ m → m < n → p m) ∧ L n e := by
  induction k generalizing i a with
  | zero =>
    apply (Spec.pure a).congr
    · exact ⟨fun _ n hi hn => absurd hn (by omega), fun _ => trivial⟩
    · intro e
      exact ⟨False.elim, fun ⟨n, hi, hn, _⟩ => absurd hn (by omega)⟩
  | succ k ih =>
    apply ((h i a).bind fun _ => ih (i + 1) (v i a)).congr
    · constructor
      · rintro ⟨hi, hrest⟩ n hin hn
        rcases Nat.eq_or_lt_of_le hin with rfl | hlt
        · exact hi
        · exact hrest n hlt (by omega)
      · intro hall
        exact ⟨hall i (Nat.le_refl i) (by omega), fun n hin hn => hall n (by omega) (by omega)⟩
    · intro e
      constructor
      · rintro (hL | ⟨hi, n, hin, hn, hbefore, hL⟩)
        · exact ⟨i, Nat.le_refl i, by omega, fun m h₁ h₂ => absurd h₂ (by omega), hL⟩
        · refine ⟨n, by omega, by omega, fun m him hm => ?_, hL⟩
          rcases Nat.eq_or_lt_of_le him with rfl | hlt
          · exact hi
          · exact hbefore m hlt hm
      · rintro ⟨n, hin, hn, hbefore, hL⟩
        rcases Nat.eq_or_lt_of_le hin with rfl | hlt
        · exact .inl hL
        · exact .inr ⟨hbefore i (Nat.le_refl i) hlt, n, hlt, by omega,
            fun m him hm => hbefore m (by omega) hm, hL⟩

end Spec

/-! ## Effects -/

/-- Where `x` returns, it has taken the state through `f`, and of its events those
    that `view` shows are `es`, in order. -/
structure Effect (view : β → Option γ) (x : Logged σ β ε α) (f : σ → σ) (es : List γ) : Prop where
  state : ∀ j a, (exec x j).1 = .ok a → (exec x j).2.state = f j.state
  seen : ∀ j a, (exec x j).1 = .ok a →
    (exec x j).2.log.filterMap view = j.log.filterMap view ++ es

namespace Effect

variable {view : β → Option γ} {x : Logged σ β ε α} {f g : σ → σ} {es es' : List γ} {L : β → Prop}

theorem pure (a : α) : Effect view (Pure.pure a : Logged σ β ε α) id [] where
  state _ _ _ := rfl
  seen _ _ _ := (List.append_nil _).symm

theorem emits (bs : List β) :
    Effect view (Logged.emits bs : Logged σ β ε Unit) id (bs.filterMap view) where
  state _ _ _ := rfl
  seen _ _ _ := List.filterMap_append

theorem act (f : σ → σ) : Effect view (Logged.act f : Logged σ β ε Unit) f [] where
  state _ _ _ := rfl
  seen _ _ _ := (List.append_nil _).symm

theorem refuse (c : Prop) [Decidable c] (e : ε) :
    Effect view (Logged.refuse c e : Logged σ β ε Unit) id [] where
  state j a h := by
    unfold Logged.refuse
    split <;> rfl
  seen j a h := by
    rw [List.append_nil]
    unfold Logged.refuse
    split <;> rfl

theorem bind {k : α → Logged σ β ε α'} {p : Prop} {v : α}
    (hx : Spec x p v L) (ex : Effect view x f es) (ek : p → Effect view (k v) g es') :
    Effect view (x >>= k) (g ∘ f) (es ++ es') := by
  have hpass : ∀ j a, (exec (x >>= k) j).1 = .ok a → p := by
    intro j a h
    by_contra hp
    obtain ⟨e, he⟩ := hx.refused hp j
    rw [exec_bind_of_error he] at h
    cases h
  constructor
  · intro j a h
    have hp := hpass j a h
    rw [exec_bind_of_ok (hx.ok hp j)] at h ⊢
    rw [(ek hp).state _ a h, ex.state j v (hx.ok hp j)]
    rfl
  · intro j a h
    have hp := hpass j a h
    rw [exec_bind_of_ok (hx.ok hp j)] at h ⊢
    rw [(ek hp).seen _ a h, ex.seen j v (hx.ok hp j), List.append_assoc]

theorem congr (h : Effect view x f es) (hf : f = g) (hes : es = es') : Effect view x g es' :=
  hf ▸ hes ▸ h

/-- A computation that is refused has any effect. -/
theorem of_refused {p : Prop} {v : α} (hx : Spec x p v L) (hp : ¬p) :
    Effect view x f es := by
  have hno : ∀ j a, (exec x j).1 ≠ .ok a := by
    intro j a h
    obtain ⟨e, he⟩ := hx.refused hp j
    rw [he] at h
    cases h
  exact ⟨fun j a h => absurd h (hno j a), fun j a h => absurd h (hno j a)⟩

theorem loop {p : Nat → Prop} {v : Nat → α → α}
    {L : Nat → β → Prop} {f : Nat → σ → σ} {es : Nat → List γ}
    (hs : ∀ i a, Spec (body i a) (p i) (v i a) (L i))
    (he : ∀ i a, p i → Effect view (body i a) (f i) (es i)) (k i : Nat) (a : α) :
    Effect view (Logged.loop body k i a) (fun m => (List.range' i k).foldl (fun m n => f n m) m)
      ((List.range' i k).flatMap es) := by
  induction k generalizing i a with
  | zero => exact Effect.pure a
  | succ k ih =>
    have hbody : Effect view (body i a) (f i) (es i) := by
      by_cases hp : p i
      · exact he i a hp
      · exact of_refused (hs i a) hp
    exact Effect.bind (hs i a) hbody fun _ => ih (i + 1) (v i a)

end Effect

/-! ## Both -/

/-- `x` passes, returns and logs so, and where it returns it has such an effect. -/
structure Does (view : β → Option γ) (x : Logged σ β ε α) (p : Prop) (v : α) (L : β → Prop)
    (f : σ → σ) (es : List γ) : Prop extends Spec x p v L, Effect view x f es

namespace Does

variable {view : β → Option γ} {x : Logged σ β ε α} {p q : Prop} {v : α} {L M : β → Prop}
  {f g : σ → σ} {es es' : List γ}

theorem of_effect (h : Spec x p v L) (he : p → Effect view x f es) : Does view x p v L f es := by
  by_cases hp : p
  · exact ⟨h, he hp⟩
  · exact ⟨h, .of_refused h hp⟩

theorem pure (a : α) :
    Does view (Pure.pure a : Logged σ β ε α) True a (fun _ => False) id [] :=
  ⟨.pure a, .pure a⟩

theorem emits (bs : List β) : Does view (Logged.emits bs : Logged σ β ε Unit) True () (· ∈ bs) id
    (bs.filterMap view) :=
  ⟨.emits bs, .emits bs⟩

theorem act (f : σ → σ) :
    Does view (Logged.act f : Logged σ β ε Unit) True () (fun _ => False) f [] :=
  ⟨.act f, .act f⟩

theorem refuse (c : Prop) [Decidable c] (e : ε) :
    Does view (Logged.refuse c e : Logged σ β ε Unit) (¬c) () (fun _ => False) id [] :=
  ⟨.refuse c e, .refuse c e⟩

theorem bind {k : α → Logged σ β ε α'} {w : α'} (hx : Does view x p v L f es)
    (hk : p → Does view (k v) q w M g es') :
    Does view (x >>= k) (p ∧ q) w (fun e => L e ∨ p ∧ M e) (g ∘ f) (es ++ es') :=
  ⟨hx.toSpec.bind fun hp => (hk hp).toSpec,
    .bind hx.toSpec hx.toEffect fun hp => (hk hp).toEffect⟩

theorem congr (h : Does view x p v L f es) (hp : p ↔ q) (hL : ∀ e, L e ↔ M e) (hf : f = g)
    (hes : es = es') : Does view x q v M g es' :=
  ⟨h.toSpec.congr hp hL, h.toEffect.congr hf hes⟩

end Does

end Logged

end DmaCpu
