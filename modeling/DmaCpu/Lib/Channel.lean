-- SUMMARY: Histories of a channel: items are taken from senders and handed to receivers in order.
import Mathlib.Data.List.Infix

/-!
# Channels

A channel takes items from senders and hands them to receivers. Its history is
the list of these moves. `Carries l q` says that the channel has been a queue
all along: at no moment had something been handed over that was not the next
item taken, and what is still in transit is `q`.
-/
namespace DmaCpu.Channel

inductive Move (κ ρ α : Type*) where
  /-- The next item of sender `c` leaves it. -/
  | take (c : κ) (b : α)
  /-- An item arrives at receiver `r`. -/
  | hand (r : ρ) (b : α)
  deriving DecidableEq

variable {κ ρ α : Type*}

/-- The items taken, in order. -/
def takes : List (Move κ ρ α) → List α
  | [] => []
  | .take _ b :: l => b :: takes l
  | .hand _ _ :: l => takes l

/-- The items handed over, in order. -/
def hands : List (Move κ ρ α) → List α
  | [] => []
  | .take _ _ :: l => hands l
  | .hand _ b :: l => b :: hands l

/-- The items taken from sender `c`, in order. -/
def takesOf [DecidableEq κ] (c : κ) : List (Move κ ρ α) → List α
  | [] => []
  | .take c' b :: l => if c' = c then b :: takesOf c l else takesOf c l
  | .hand _ _ :: l => takesOf c l

@[simp] theorem takes_append (l l' : List (Move κ ρ α)) : takes (l ++ l') = takes l ++ takes l' := by
  induction l with
  | nil => rfl
  | cons m l ih => cases m <;> simp [takes, ih]

@[simp] theorem hands_append (l l' : List (Move κ ρ α)) : hands (l ++ l') = hands l ++ hands l' := by
  induction l with
  | nil => rfl
  | cons m l ih => cases m <;> simp [hands, ih]

@[simp] theorem takesOf_append [DecidableEq κ] (c : κ) (l l' : List (Move κ ρ α)) :
    takesOf c (l ++ l') = takesOf c l ++ takesOf c l' := by
  induction l with
  | nil => rfl
  | cons m l ih =>
    cases m with
    | take c' b =>
      by_cases h : c' = c <;> simp [takesOf, ih, h]
    | hand r b => simp [takesOf, ih]

@[simp] theorem takesOf_map_take [DecidableEq κ] (c c' : κ) (bs : List α) :
    takesOf c (bs.map (Move.take c' : α → Move κ ρ α)) = if c' = c then bs else [] := by
  induction bs with
  | nil => simp [takesOf]
  | cons b bs ih => by_cases h : c' = c <;> simp_all [takesOf]

@[simp] theorem takesOf_map_hand [DecidableEq κ] (c : κ) (r : ρ) (bs : List α) :
    takesOf c (bs.map (Move.hand r : α → Move κ ρ α)) = [] := by
  induction bs with
  | nil => rfl
  | cons b bs ih => simpa [takesOf] using ih

/-- An item goes straight from a sender to a receiver. -/
def pass (c : κ) (r : ρ) (b : α) : List (Move κ ρ α) := [.take c b, .hand r b]

@[simp] theorem takesOf_flatMap_pass [DecidableEq κ] (c c' : κ) (r : ρ) (bs : List α) :
    takesOf c (bs.flatMap (pass c' r : α → List (Move κ ρ α))) = if c' = c then bs else [] := by
  induction bs with
  | nil => simp [takesOf]
  | cons b bs ih => by_cases h : c' = c <;> simp_all [takesOf, pass]

structure Carries (l : List (Move κ ρ α)) (q : List α) : Prop where
  transit : takes l = hands l ++ q
  fifo : ∀ l', l' <+: l → hands l' <+: takes l'

theorem Carries.nil : Carries ([] : List (Move κ ρ α)) [] where
  transit := rfl
  fifo := by
    rintro l' hl
    rw [List.prefix_nil.mp hl]
    exact List.prefix_rfl

/-- One more move: it is enough to look at the whole new history. -/
theorem Carries.snoc {l : List (Move κ ρ α)} {q q' : List α} {m : Move κ ρ α} (h : Carries l q)
    (ht : takes (l ++ [m]) = hands (l ++ [m]) ++ q') : Carries (l ++ [m]) q' where
  transit := ht
  fifo := by
    intro l' hl
    rcases List.prefix_concat_iff.mp hl with rfl | hl
    · rw [ht]
      exact List.prefix_append _ _
    · exact h.fifo l' hl

variable {l : List (Move κ ρ α)} {q : List α}

theorem Carries.take (h : Carries l q) (c : κ) (b : α) : Carries (l ++ [.take c b]) (q ++ [b]) := by
  refine h.snoc ?_
  simp [takes, hands, h.transit]

theorem Carries.hand {b : α} (h : Carries l (b :: q)) (r : ρ) : Carries (l ++ [.hand r b]) q := by
  refine h.snoc ?_
  simp [takes, hands, h.transit]

theorem Carries.takeAll (h : Carries l q) (c : κ)
    (bs : List α) : Carries (l ++ bs.map (.take c)) (q ++ bs) := by
  induction bs generalizing l q with
  | nil => simpa using h
  | cons b bs ih => simpa using ih (h.take c b)

theorem Carries.handAll (h : Carries l q) (r : ρ) (n : Nat) :
    Carries (l ++ (q.take n).map (.hand r)) (q.drop n) := by
  induction n generalizing l q with
  | zero => simpa using h
  | succ n ih =>
    cases q with
    | nil => simpa using h
    | cons b q => simpa using ih (h.hand r)

/-- Items can pass straight through an empty channel. -/
theorem Carries.passAll (h : Carries l []) (c : κ) (r : ρ) (bs : List α) :
    Carries (l ++ bs.flatMap (pass c r)) [] := by
  induction bs generalizing l with
  | nil => simpa using h
  | cons b bs ih =>
    have hb : Carries (l ++ [.take c b] ++ [.hand r b]) [] := (h.take c b).hand r
    simpa [pass] using ih hb

end DmaCpu.Channel
