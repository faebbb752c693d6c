-- SUMMARY: Pipe streams are first in, first out, unless a write overtakes bytes in the ring.
import DmaCpu.Xv6.Ledger

/-!
# Order of the bytes

Bytes travel through the ring, from a parked writer into the ring, and straight
from a writer to a parked reader. The last way is a shortcut past the ring: it
keeps the order only when the ring is empty.
-/
namespace DmaCpu.Xv6

open Channel (takes hands takesOf Carries)

variable {k k' : Kernel} {pi : PipeId}

namespace Kernel

variable {P : Slot → Prop} {C : Kernel → Answer → Prop}

/-- Every stream has been a queue all along, and the ring holds what is in
    transit. -/
structure Queued (k : Kernel) : Prop where
  live : ∀ pi, Carries (k.moves (k.pipes pi).stream) (k.pipes pi).queue
  past : ∀ st, ∃ q, Carries (k.moves st) q

theorem Queued.moved {c n : Nat} {l : List Move} (h : k.Queued) (hs : k.Streams)
    (hm : Moved k k' pi c n l)
    (hq : Carries (k.moves (k.pipes pi).stream ++ l) (k'.pipes pi).queue) : k'.Queued := by
  have hst : ∀ pj, (k'.pipes pj).stream = (k.pipes pj).stream :=
    fun pj => congrArg (fun k => (k.pipes pj).stream) hm.still
  constructor
  · intro pj
    rw [hst, hm.moves]
    by_cases hpj : pj = pi
    · rw [hpj, Function.update_self]
      exact hq
    · rw [Function.update_of_ne fun he => hpj (hs.inj pj pi he), hm.others pj hpj]
      exact h.live pj
  · intro st
    rw [hm.moves]
    by_cases he : st = (k.pipes pi).stream
    · rw [he, Function.update_self]
      exact ⟨_, hq⟩
    · rw [Function.update_of_ne he]
      exact h.past st

theorem Queued.congr (h : k.Queued) (hr : ∀ pi, (k'.pipes pi).ring = (k.pipes pi).ring)
    (hm : k'.moves = k.moves) : k'.Queued := by
  refine ⟨fun pi => ?_, fun st => ?_⟩
  · have hstream : (k'.pipes pi).stream = (k.pipes pi).stream := congrArg RingPart.stream (hr pi)
    have hqueue : (k'.pipes pi).queue = (k.pipes pi).queue :=
      congrArg (fun r : RingPart => Ring.contents r.data r.nread r.nwrite) (hr pi)
    rw [hm, hstream, hqueue]
    exact h.live pi
  · rw [hm]
    exact h.past st

theorem Queued.same (h : k.Queued) (hb : SameBytes k k') : k'.Queued := h.congr hb.ring hb.moves

section

variable (h : k.Queued) (hs : k.Streams) (pi : PipeId)
include h hs

theorem Queued.openPipe : (k.openPipe pi).Queued := by
  refine ⟨fun pj => ?_, h.past⟩
  by_cases hp : pj = pi
  · subst hp
    have hmoves : (k.openPipe pj).moves ((k.openPipe pj).pipes pj).stream = [] := by
      simpa [Kernel.openPipe, setPipe] using hs.fresh k.nstream (Nat.le_refl _)
    have hqueue : ((k.openPipe pj).pipes pj).queue = [] := by
      simp [Kernel.openPipe, setPipe, Pipe.queue]
    rw [hmoves, hqueue]
    exact .nil
  · have hpipe : (k.openPipe pi).pipes pj = k.pipes pj := by
      simp [Kernel.openPipe, setPipe, hp]
    rw [hpipe]
    exact h.live pj

/-- Bytes of a call that go into the ring come after those that are in it. -/
theorem Queued.putAll (c : Nat) {bs : List Byte}
    (hfit : (k.pipes pi).count + bs.length ≤ pipesize) : (k.putAll pi c bs).Queued := by
  refine h.moved hs (putAll_moved ..) ?_
  rw [putAll_queue c hfit]
  exact (h.live pi).takeAll c bs

theorem Queued.drainInto
    (addr n : Word) : (k.drainInto pi addr n).Queued := by
  have h1 : (k.openRead pi n).Queued := h.congr (fun _ => rfl) rfl
  have hs1 : (k.openRead pi n).Streams := hs.congr rfl rfl rfl
  refine h1.moved hs1 (drainInto_moved k pi addr n 0) ?_
  rw [drainInto_queue]
  exact (h.live pi).handAll k.curr (k.drained pi n)

theorem Queued.pullWriter :
    (k.pullWriter pi).Queued := by
  cases hws : k.kfindSleeper (.nwrite pi) with
  | none => rwa [pullWriter_of_none hws]
  | some ws =>
    have hq : (k.pullInto pi ws).Queued := h.putAll hs pi _ (pullInto_fits hs pi ws)
    exact hq.same (pullWriter_bytes hws)

theorem Queued.read (addr n : Word) :
    (ioTail (k.piperead pi addr n)).Queued := by
  have h1 := (h.drainInto hs pi addr n).pullWriter (hs.drainInto pi addr n) pi
  exact h1.same (read_tail k pi addr n).bytes

end

/-- A write keeps the order if it has nothing for the first parked reader or
    there is nothing in the ring. -/
def KeepsOrder (k : Kernel) (pi : PipeId) (n : Word) : Prop :=
  ∀ rs, k.kfindSleeper (.nread pi) = some rs →
    n.toInt ≤ 0 ∨ (k.mailof rs).a2 = 0 ∨ (k.pipes pi).nread = (k.pipes pi).nwrite

theorem deposit_keepsOrder (hv : k.Vfork) (hc : k.Ready k.curr) {n : Word} (h : k.KeepsOrder pi n)
    (addr : Word) : (k.deposit pi addr n).2 = 0 ∨ (k.pipes pi).queue = [] := by
  cases hrs : k.kfindSleeper (.nread pi) with
  | none =>
    rw [deposit_of_none hrs]
    exact .inl rfl
  | some rs =>
    rw [deposit_of_some hrs (hv.img_ne hc (kfindSleeper_some hrs) (by simp))]
    rcases h rs hrs with h | h | h
    · exact .inl (by simp only [deposited]; omega)
    · exact .inl (by simp [deposited, h])
    · exact .inr (Ring.contents_eq_nil.mpr h)

theorem Queued.writeInto (h : k.Queued) (hs : k.Streams) (hv : k.Vfork) (hc : k.Ready k.curr)
    {n : Word} (ho : k.KeepsOrder pi n) (addr : Word) : (k.writeInto pi addr n).Queued := by
  have hv1 : (k.openCall pi addr n).Vfork := hv.of_procs rfl rfl
  have h1 : (k.openCall pi addr n).Queued := h.congr (fun _ => rfl) rfl
  have hs1 : (k.openCall pi addr n).Streams := hs.congr rfl rfl rfl
  have ho1 : (k.openCall pi addr n).KeepsOrder pi n := by
    intro rs hrs
    exact ho rs hrs
  have hdep := deposit_deposited hv1 hc pi addr n
  have hempty := deposit_keepsOrder hv1 hc ho1 addr
  have hs2 := hdep.written.streams hs
  unfold Kernel.writeInto
  generalize k.openCall pi addr n = k1 at *
  generalize k1.deposit pi addr n = r at *
  obtain ⟨rs, m, hp, hb, hm⟩ := hdep.moved
  have h2 : r.1.Queued := by
    refine (h1.moved hs1 hm ?_).same hb
    rw [hp]
    rcases hempty with h0 | h0
    · rw [h0, bytesAt_zero, List.flatMap_nil, List.append_nil]
      exact h1.live pi
    · have hlive := h1.live pi
      rw [h0] at hlive ⊢
      exact hlive.passAll _ _ _
  exact h2.putAll hs2 pi _ (filled_fits hs2 pi n (length_bytesAt ..))

theorem Queued.write (h : k.Queued) (hs : k.Streams) (hv : k.Vfork) (hc : k.Ready k.curr) {n : Word}
    (ho : (k.pipes pi).readopen = true → k.KeepsOrder pi n) (addr : Word) :
    (ioTail (k.pipewrite pi addr n)).Queued := by
  have hout := write_outcome k pi addr n
  generalize ioTail (k.pipewrite pi addr n) = k' at hout
  cases hout with
  | refused =>
    have h1 : (k.openCall pi addr n).Queued := h.congr (fun _ => rfl) rfl
    exact h1.same (sysTail_frame ..).toSameBytes
  | done hr =>
    have h1 := h.writeInto hs hv hc (ho hr) addr
    exact h1.same (sysTail_frame ..).toSameBytes
  | parks hr =>
    have h1 := h.writeInto hs hv hc (ho hr) addr
    generalize k.disposed pi addr n = d
    generalize k.writeInto pi addr n = m at *
    have h2 : (m.parkWriter pi addr n d).Queued := h1.congr (fun _ => rfl) rfl
    exact h2.same (sysTail_frame ..).toSameBytes

/-- A write call that may be made: no parked reader is served while older bytes
    are in the ring. -/
def InOrder (k : Kernel) : Prop :=
  ∀ pi, k.Writes pi → (k.pipes pi).readopen = true → k.KeepsOrder pi (k.mailof k.curr).a2

theorem Queued.act (h : k.Queued) (hp : k.Piping)
    (ha : PipeAct P (fun k _ => k.InOrder) k k') : k'.Queued := by
  have hs := hp.ledger.streams
  cases ha with
  | quiet hq => exact h.same hq.toSameBytes
  | opens hu hq => exact (h.openPipe hs _).same hq.toSameBytes
  | read hk _ _ => exact h.read hs _ _ _
  | write hk hC hw => exact h.write hs hp.vfork hk.ready (hC _ hw) _

/-- No signal hits a suspended parent and no write overtakes bytes in the ring. -/
def FifoOk (k : Kernel) (e : Event) : Prop := k.Calm e ∧ k.OnCall (fun k _ => k.InOrder) e

section Decidable

instance (k : Kernel) (pi : PipeId) (n : Word) : Decidable (k.KeepsOrder pi n) := by
  unfold KeepsOrder
  infer_instance

instance (k : Kernel) : Decidable k.InOrder := by
  unfold InOrder
  infer_instance

instance (k : Kernel) (e : Event) : Decidable (k.FifoOk e) := by
  unfold FifoOk
  infer_instance

end Decidable

/-- The shell makes a pipe and two children that exec and read one byte each:
    both are parked. Then the shell writes two bytes. -/
def twoReaders : List Event :=
  Event.call 4 0x40 ++
  Event.call 1 ++ Event.call 7 0 0 0 { program := .row 100 100 0 0 } ++ Event.call 5 3 0 1 ++
  Event.call 1 ++ Event.call 7 0 0 0 { program := .row 100 100 0 0 } ++ Event.call 5 3 0 1 ++
  [.user (fun a => if a = 0 then 97 else if a = 1 then 98 else 99) 0] ++ Event.call 16 4 0 2

end Kernel

end DmaCpu.Xv6
