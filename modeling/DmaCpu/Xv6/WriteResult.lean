-- SUMMARY: The value that a pipe write finally delivers to its caller.
import DmaCpu.Xv6.Ledger

/-!
# The result of a write

A write that blocks is finished by other processes. The count they start from
is the `done` word of the writer's mailbox, which the tail of the writer's own
system call overwrites with 1. So the value delivered is off by what had been
done before the writer went to sleep, less one.
-/
namespace DmaCpu.Xv6

open Function Option

open Channel (takesOf)

variable {k k' : Kernel} {pi : PipeId} {c : Nat} {s : Slot} {v : Word} {w : WriteCall} {st : Nat}

namespace Kernel

variable {P : Slot → Prop} {C : Kernel → Answer → Prop}

/-- No pipe through which stream `st` goes has an open read end. -/
def Shutdown (k : Kernel) (st : Nat) : Prop :=
  ∀ pi, (k.pipes pi).stream = st → (k.pipes pi).readopen = false

/-- Process `s` has the answer to its write call `c`, whose record was `w` when
    the call was made and whose answer, if it was given at once, was `v`. -/
structure Answered (k : Kernel) (s : Slot) (c : Nat) (w : WriteCall) (v : Word) : Prop where
  ret : (k.mailof s).ret = k.r0 (k.img s)
  atOnce : w.parkedAt = none → k.r0 (k.img s) = v ∧ (k.calls c).taken = w.taken
  later : ∀ d, w.parkedAt = some d → d ≤ (k.calls c).taken ∧
    k.r0 (k.img s) = 1 + BitVec.ofNat 32 ((k.calls c).taken - d) ∧
    ((k.calls c).taken = (k.calls c).buf.length ∨ k.Shutdown w.stream)

/-- As long as `s` is in call `c`, it is answered once it may run. -/
structure Delivers (s : Slot) (c : Nat) (w : WriteCall) (v : Word) (k : Kernel) : Prop where
  lt : c < k.ncalls
  call : k.inCall s = some (.write c) → ∃ t, k.calls c = { w with taken := t }
  answered : k.inCall s = some (.write c) → k.Ready s → k.Answered s c w v

/-! ## Actions that move no byte of the call -/

theorem Shutdown.quiet (h : k.Shutdown st) (hq : Quiet P k k') : k'.Shutdown st := by
  intro pi hst
  have hstream : (k'.pipes pi).stream = (k.pipes pi).stream :=
    congrArg RingPart.stream (hq.ring pi)
  exact (hq.shut pi).readopen (h pi (hstream ▸ hst))

theorem Shutdown.frame {q : Option Slot} (h : k.Shutdown st)
    (hf : IoFrame k k' pi q) : k'.Shutdown st := by
  intro pj hst
  rw [(hf.flags pj).1]
  exact h pj (hf.stream_eq pj ▸ hst)

/-- A fresh pipe carries a new stream. -/
theorem openPipe_old {pj : PipeId} (h : ((k.openPipe pi).pipes pj).stream < k.nstream) :
    (k.openPipe pi).pipes pj = k.pipes pj := by
  have hp : pj ≠ pi := by
    rintro rfl
    simp [Kernel.openPipe, setPipe] at h
  simp [Kernel.openPipe, setPipe, hp]

theorem Shutdown.openPipe (h : k.Shutdown st) (hst : st < k.nstream)
    (pi : PipeId) : (k.openPipe pi).Shutdown st := by
  intro pj he
  have hpipe : (k.openPipe pi).pipes pj = k.pipes pj := openPipe_old (he ▸ hst)
  rw [hpipe] at he ⊢
  exact h pj he

theorem Answered.same {k k' : Kernel} {s : Slot} {c : Nat} {w : WriteCall} {v : Word}
    (h : k.Answered s c w v) (hr : k'.r0 (k'.img s) = k.r0 (k.img s))
    (hm : k'.mailof s = k.mailof s) (hc : k'.calls c = k.calls c)
    (hst : k.Shutdown w.stream → k'.Shutdown w.stream) : k'.Answered s c w v where
  ret := by
    rw [hr, hm]
    exact h.ret
  atOnce := by
    rw [hr, hc]
    exact h.atOnce
  later d hd := by
    rw [hr, hc]
    obtain ⟨hle, hval, hend⟩ := h.later d hd
    exact ⟨hle, hval, hend.imp_right hst⟩

theorem Delivers.quiet (h : Delivers s c w v k) (hl : k.Ledger) (hq : Quiet (· ≠ s) k k') :
    Delivers s c w v k' := by
  refine ⟨hq.ncalls ▸ h.lt, fun hin => ?_, fun hin hr => ?_⟩
  · rw [hq.calls]
    exact h.call (hq.inCall_eq hin)
  · have hin0 := hq.inCall_eq hin
    cases hq.due s _ hin hr with
    | same hr0 hval hm =>
      exact (h.answered hin0 hr0).same hval hm (by rw [hq.calls]) fun hst => hst.quiet hq
    | @short pi hs hcl hval hm =>
      -- the read end was closed: the count in the mailbox is the answer
      obtain ⟨c', hwait⟩ := hl.callers.waiting s pi hs
      cases Call.write.inj (some.inj (hin0.symm.trans hwait.inCall))
      obtain ⟨t, ht⟩ := h.call hin0
      have hpark : (k.calls c).parkedAt = w.parkedAt := by rw [ht]
      obtain ⟨d, hd, hle, hdone⟩ := hwait.progress
      refine ⟨?_, fun hnone => ?_, fun d' hd' => ?_⟩
      · rw [hm, hval]
      · rw [← hpark, hd] at hnone
        cases hnone
      · rw [← hpark, hd] at hd'
        cases hd'
        rw [hq.calls]
        refine ⟨hle, hval.trans hdone, .inr fun pj hst => ?_⟩
        have hring : ∀ pj, (k'.pipes pj).stream = (k.pipes pj).stream :=
          fun pj => congrArg RingPart.stream (hq.ring pj)
        have hstream := hwait.stream
        rw [ht] at hstream
        rw [hring, hstream] at hst
        rw [hl.streams.inj pj pi hst]
        exact hcl
    | eof hs =>
      rw [hl.callers.reading s _ hs] at hin0
      cases hin0
    | interrupted hP => exact absurd rfl hP

theorem Delivers.openPipe (h : Delivers s c w v k) (hl : k.Ledger) (pi : PipeId) :
    Delivers s c w v (k.openPipe pi) := by
  refine ⟨h.lt, h.call, fun hin hr => ?_⟩
  refine (h.answered hin hr).same rfl rfl rfl fun hst => hst.openPipe ?_ pi
  obtain ⟨t, ht⟩ := h.call hin
  have := hl.books.issued c h.lt
  rwa [ht] at this

/-! ## Reads and writes -/

theorem read_inCall (addr n : Word) :
    (ioTail (k.piperead pi addr n)).inCall =
      update k.inCall k.curr (some (.read (k.pipes pi).stream n)) :=
  (read_tail k pi addr n).inCall.trans (readInto_inCall k pi addr n)

/-- The calls that a read does not serve are as they were. -/
theorem read_calls (hl : k.Ledger) (hv : k.Vfork) (hc : k.Ready k.curr) (hsc : s ≠ k.curr)
    (hs : k.inCall s = some (.write c)) (hne : k.kfindSleeper (.nwrite pi) ≠ some s)
    (addr n : Word) : (ioTail (k.piperead pi addr n)).calls c = k.calls c := by
  have hproc := drainInto_proc k pi addr n
  have hs1 : (k.drainInto pi addr n).inCall s = some (.write c) :=
    ((drainInto_frame k pi addr n).inCall s hsc).trans hs
  have hne1 : (k.drainInto pi addr n).kfindSleeper (.nwrite pi) ≠ some s := by
    rwa [kfindSleeper_congr hproc]
  rw [(read_tail k pi addr n).bytes.calls, readInto,
    pullWriter_calls (hl.callers.drainInto hv hc pi addr n) hs1 hne1]
  rw [drainInto_calls]

section

variable (h : Delivers s c w v k) (hl : k.Ledger) (hv : k.Vfork) (hk : k.AtCall) (pi : PipeId) (addr n : Word)
include h hl hv hk

/-- Some process, maybe `s` itself in another call, reads the pipe. -/
theorem Delivers.read : Delivers s c w v (ioTail (k.piperead pi addr n)) := by
  have hc := hk.ready
  have hframe := read_frame k pi addr n
  have hn : (ioTail (k.piperead pi addr n)).ncalls = k.ncalls :=
    (read_tail k pi addr n).bytes.ncalls.trans
      ((pullWriter_inCall _ pi).2.trans (drainInto_ncalls ..))
  have hback : (ioTail (k.piperead pi addr n)).inCall s = some (.write c) →
      s ≠ k.curr ∧ k.inCall s = some (.write c) := by
    intro hin
    rw [read_inCall] at hin
    by_cases hsc : s = k.curr
    · simp [hsc] at hin
    · exact ⟨hsc, by rwa [update_of_ne hsc] at hin⟩
  have hserved : ∀ ws, k.kfindSleeper (.nwrite pi) = some ws → k.inCall ws = some (.write c) →
      k.Waiting ws pi c ∧ Served k (ioTail (k.piperead pi addr n)) ws pi c := by
    intro ws hws hin
    obtain ⟨c', hwait⟩ := hl.callers.waiting ws pi (kfindSleeper_some hws)
    cases Call.write.inj (some.inj (hin.symm.trans hwait.inCall))
    exact ⟨hwait, read_served hl hv hc hws hwait addr n⟩
  refine ⟨hn ▸ h.lt, fun hin => ?_, fun hin hr => ?_⟩
  all_goals
    obtain ⟨hsc, hin0⟩ := hback hin
    obtain ⟨t, ht⟩ := h.call hin0
    by_cases hq : k.kfindSleeper (.nwrite pi) = some s
  · obtain ⟨hwait, hsv⟩ := hserved s hq hin0
    cases hsv with
    | more _ _ t' hcall => exact ⟨t', by rw [hcall, ht]⟩
    | done _ _ _ hcall => exact ⟨_, by rw [hcall, ht]⟩
  · rw [read_calls hl hv hc hsc hin0 hq]
    exact ⟨t, ht⟩
  · obtain ⟨hwait, hsv⟩ := hserved s hq hin0
    cases hsv with
    | more hsl => exact absurd hsl hr.not_sleepsOn
    | done _ hval hm hcall =>
      obtain ⟨d, hd, hle, hdone⟩ := hwait.progress
      have hpark : (k.calls c).parkedAt = w.parkedAt := by rw [ht]
      have hbuf := hl.books.le c
      refine ⟨hm.trans hval.symm, fun hnone => ?_, fun d' hd' => ?_⟩
      · rw [← hpark, hd] at hnone
        cases hnone
      · rw [← hpark, hd] at hd'
        cases hd'
        rw [hcall]
        refine ⟨Nat.le_trans hle hbuf, ?_, .inl rfl⟩
        have ha2 : (k.mailof s).a2 =
            BitVec.ofNat 32 ((k.calls c).buf.length - (k.calls c).taken) := by
          rw [← hwait.left, BitVec.ofNat_toNat, BitVec.setWidth_eq]
        rw [hval, hdone, ha2, BitVec.add_assoc, ← BitVec.ofNat_add]
        dsimp only
        congr 2
        omega
  · obtain ⟨hr0, hval, hm⟩ :=
      hframe.answer hv hc (fun t ht => kfindSleeper_watched ht trivial) hr hsc hq
    exact (h.answered hin0 hr0).same hval hm (read_calls hl hv hc hsc hin0 hq addr n)
      fun hst => hst.frame hframe

/-- Another process writes to the pipe. -/
theorem Delivers.write : Delivers s c w v (ioTail (k.pipewrite pi addr n)) := by
  have hc := hk.ready
  have hframe := write_frame hv hc pi addr n
  obtain ⟨d, p, hrec⟩ := write_recorded hv hc pi addr n
  have hlt := h.lt
  have hback : (ioTail (k.pipewrite pi addr n)).inCall s = some (.write c) →
      s ≠ k.curr ∧ k.inCall s = some (.write c) := by
    intro hin
    rw [hrec.inCall] at hin
    by_cases hsc : s = k.curr
    · rw [hsc, update_self, some.injEq, Call.write.injEq] at hin
      omega
    · exact ⟨hsc, by rwa [update_of_ne hsc] at hin⟩
  have hcalls : (ioTail (k.pipewrite pi addr n)).calls c = k.calls c := by
    rw [hrec.calls, update_of_ne (by omega)]
  refine ⟨by rw [hrec.ncalls]; omega, fun hin => ?_, fun hin hr => ?_⟩
  · rw [hcalls]
    exact h.call (hback hin).2
  · obtain ⟨hsc, hin0⟩ := hback hin
    have hq : k.kfindSleeper (.nread pi) ≠ some s := by
      intro hrs
      rw [hl.callers.reading s pi (kfindSleeper_some hrs)] at hin0
      cases hin0
    obtain ⟨hr0, hval, hm⟩ :=
      hframe.answer hv hc (fun t ht => kfindSleeper_watched ht trivial) hr hsc hq
    exact (h.answered hin0 hr0).same hval hm hcalls fun hst => hst.frame hframe

end

theorem Delivers.act (h : Delivers s c w v k) (hp : k.Piping) (ha : PipeAct (· ≠ s) C k k') :
    Delivers s c w v k' := by
  cases ha with
  | quiet hq => exact h.quiet hp.ledger hq
  | opens hu hq => exact (h.openPipe hp.ledger _).quiet (hp.ledger.openPipe hp.ports hu) hq
  | read hk _ _ => exact h.read hp.ledger hp.vfork hk _ _ _
  | write hk _ _ => exact h.write hp.ledger hp.vfork hk _ _ _

/-! ## The call itself -/

theorem dmaKsyscall_write (hkill : (k.proc k.curr).killed = false) (hw : k.Writes pi) (a : Answer) :
    k.dmaKsyscall a = ioTail (k.pipewrite pi (k.mailof k.curr).a1 (k.mailof k.curr).a2) := by
  obtain ⟨hnum, hbuf, hfs, f, hf, ht, rfl, hwr⟩ := hw
  have hwr' : (k.ftable f).writable = true := by simpa using hwr
  have hbuf' : badbuf (k.proc k.curr) (k.mailof k.curr).a1 (k.mailof k.curr).a2 = false := hbuf
  simp only [dmaKsyscall, hkill, dispatch, hnum, sysWrite, hbuf', hfs, kfsWrite, hf, filewrite, hwr',
    ht, ioTail]
  rfl

theorem step_syscall {a : Answer} (hp : k.phase = .entered .syscall)
    (h : k.step (.handler a) = some k') : k' = k.dmaKsyscall a := by
  cases step_cases h with
  | syscall => rfl
  | ktick _ hp' => rw [hp] at hp'; cases hp'

theorem sysTail_ret_value (k : Kernel) (v : Word) :
    (k.sysTail (.ret v)).r0 ((k.sysTail (.ret v)).img k.curr) = v ∧
      ((k.sysTail (.ret v)).mailof k.curr).ret = v := by
  rw [mailof, sysTail_img]
  simp [sysTail, setProc, setret]

/-- The bytes that a write gets rid of at once: what the first parked reader
    wants and what fits into the ring. -/
def capacity (k : Kernel) (pi : PipeId) : Nat :=
  (match k.kfindSleeper (.nread pi) with
    | none => 0
    | some rs => (k.mailof rs).a2.toNat) + room (k.pipes pi)

theorem disposed_eq (hv : k.Vfork) (hc : k.Ready k.curr) (pi : PipeId)
    (addr n : Word) : k.disposed pi addr n = min n.toInt.toNat (k.capacity pi) := by
  have hv1 : (k.openCall pi addr n).Vfork := hv.of_procs rfl rfl
  have hdep := deposit_deposited hv1 hc pi addr n
  have hfind : (k.openCall pi addr n).kfindSleeper (.nread pi) = k.kfindSleeper (.nread pi) :=
    kfindSleeper_congr rfl _
  have hroom : ∀ r : Kernel × Nat, r.1.pipes = (k.openCall pi addr n).pipes →
      r.1.filled pi n r.2 = min (n.toInt - r.2).toNat (room (k.pipes pi)) := by
    intro r hr
    rw [filled, hr]
    rfl
  rw [disposed, hroom _ hdep.pipes, capacity]
  cases hrs : k.kfindSleeper (.nread pi) with
  | none =>
    rw [deposit_of_none (hfind.trans hrs)]
    simp
  | some rs =>
    have hne : (k.openCall pi addr n).img k.curr ≠ (k.openCall pi addr n).img rs :=
      hv.img_ne hc (kfindSleeper_some hrs) (by simp)
    rw [deposit_of_some (hfind.trans hrs) hne]
    have hval : (k.openCall pi addr n).deposited rs n =
        min n.toInt.toNat (k.mailof rs).a2.toNat := rfl
    simp only [hval]
    omega

/-- What the state right after a write call says about its result. -/
inductive Answers (k : Kernel) (pi : PipeId) (n : Word) (w : WriteCall) (v : Word) : Prop where
  | refused (h : (k.pipes pi).readopen = false) (hv : v = -1) (hp : w.parkedAt = none)
      (ht : w.taken = 0)
  | done (h : (k.pipes pi).readopen = true)
      (hd : ((min n.toInt.toNat (k.capacity pi) : Nat) : Int) = n.toInt) (hv : v = n)
      (hp : w.parkedAt = none) (ht : w.taken = min n.toInt.toNat (k.capacity pi))
  | parks (h : (k.pipes pi).readopen = true)
      (hd : ((min n.toInt.toNat (k.capacity pi) : Nat) : Int) ≠ n.toInt)
      (hp : w.parkedAt = some (min n.toInt.toNat (k.capacity pi)))

theorem write_delivers (hv : k.Vfork) (hc : k.Ready k.curr) (pi : PipeId) (addr n : Word) :
    ∃ v, Answers k pi n ((ioTail (k.pipewrite pi addr n)).calls k.ncalls) v ∧
      ((ioTail (k.pipewrite pi addr n)).calls k.ncalls).stream = (k.pipes pi).stream ∧
      ((ioTail (k.pipewrite pi addr n)).calls k.ncalls).buf = k.bytesAt k.curr addr n.toNat ∧
      Delivers k.curr k.ncalls ((ioTail (k.pipewrite pi addr n)).calls k.ncalls) v
        (ioTail (k.pipewrite pi addr n)) := by
  have hw := writeInto_written hv hc pi addr n
  have hframe := writeInto_frame hv hc pi addr n
  have hd := disposed_eq hv hc pi addr n
  have hout := write_outcome k pi addr n
  generalize ioTail (k.pipewrite pi addr n) = k' at hout
  have hret : ∀ {m : Kernel} {d : Nat} (v : Word), Written k pi addr n m d →
      ((m.sysTail (.ret v)).calls k.ncalls).stream = (k.pipes pi).stream ∧
      ((m.sysTail (.ret v)).calls k.ncalls).buf = k.bytesAt k.curr addr n.toNat ∧
      Delivers k.curr k.ncalls ((m.sysTail (.ret v)).calls k.ncalls) v (m.sysTail (.ret v)) := by
    intro m d v hm
    have hrec := hm.recorded (.ret v)
    obtain ⟨hr0, hr1⟩ := sysTail_ret_value m v
    rw [hm.curr] at hr0 hr1
    have hcall : ((m.sysTail (.ret v)).calls k.ncalls).parkedAt = none := by
      rw [hrec.calls, update_self]
    refine ⟨?_, ?_, ?_, fun _ => ⟨_, rfl⟩, fun _ _ => ⟨?_, fun _ => ⟨hr0, rfl⟩, fun d' hd' => ?_⟩⟩
    · rw [hrec.calls, update_self]
    · rw [hrec.calls, update_self]
    · rw [hrec.ncalls]
      exact Nat.lt_succ_self _
    · rw [hr0, hr1]
    · rw [hcall] at hd'
      cases hd'
  cases hout with
  | refused h =>
    have h0 := openCall_written k pi addr n
    refine ⟨-1, .refused h rfl ?_ ?_, hret _ h0⟩ <;>
      rw [(h0.recorded _).calls, update_self]
  | done h hdn =>
    refine ⟨n, .done h (hd ▸ hdn) rfl ?_ ?_, hret _ hw⟩ <;>
      rw [(hw.recorded _).calls, update_self]
    exact hd
  | parks h hdn =>
    have hrec := hw.parked (.block blocked)
    refine ⟨0, .parks h (hd ▸ hdn) ?_, ?_, ?_, ?_, fun _ => ⟨_, rfl⟩, fun _ hr => ?_⟩
    · rw [hrec.calls, update_self, hd]
    · rw [hrec.calls, update_self]
    · rw [hrec.calls, update_self]
    · rw [hrec.ncalls]
      exact Nat.lt_succ_self _
    · rw [Ready, sysTail_block_proc, ← hframe.curr] at hr
      simp [parkWriter, sleep, setMail, setProc] at hr

theorem toNat_of_toInt_nonneg {n : Word} (h : 0 ≤ n.toInt) : n.toInt.toNat = n.toNat := by
  have hint := BitVec.toInt_eq_toNat_cond n
  split at hint <;> omega

/-- The value delivered is the number of bytes taken if all went at once or
    exactly one byte did. -/
theorem Answers.correct_iff {n r : Word} {t : Nat} (h : Answers k pi n w v)
    (ho : (k.pipes pi).readopen = true) (ht : t ≤ n.toNat)
    (hnow : w.parkedAt = none → r = v ∧ t = w.taken)
    (hlater : ∀ d, w.parkedAt = some d → d ≤ t ∧ r = 1 + BitVec.ofNat 32 (t - d)) :
    r.toNat = t ↔ 0 ≤ n.toInt ∧ (n.toNat ≤ k.capacity pi ∨ k.capacity pi = 1) := by
  cases h with
  | refused h => simp [h] at ho
  | done _ hd hv hp htk =>
    obtain ⟨rfl, rfl⟩ := hnow hp
    have h0 : 0 ≤ n.toInt := by omega
    have hnat := toNat_of_toInt_nonneg h0
    subst hv
    constructor
    · exact fun _ => ⟨h0, .inl (by omega)⟩
    · omega
  | parks _ hd hp =>
    obtain ⟨hle, hr⟩ := hlater _ hp
    have hval : r.toNat = (1 + (t - min n.toInt.toNat (k.capacity pi))) % 2 ^ 32 := by
      rw [hr, BitVec.toNat_add]
      simp
    by_cases h0 : 0 ≤ n.toInt
    · have hnat := toNat_of_toInt_nonneg h0
      omega
    · omega

/-- What is known of a write call at a later moment of a run in which its caller
    is not interrupted. -/
theorem write_followed {k1 k2 : Kernel} {a : Answer} (h : k.Reachable Calm)
    (hp : k.phase = .entered .syscall) (hkill : (k.proc k.curr).killed = false) (hw : k.Writes pi)
    (hs : k.step (.handler a) = some k1)
    (hrun : Run.Reaches Kernel.step (CalmFor (· ≠ k.curr)) k1 k2) :
    ∃ w v, Answers k pi (k.mailof k.curr).a2 w v ∧ w.stream = (k.pipes pi).stream ∧
      w.buf.length = (k.mailof k.curr).a2.toNat ∧ k2.Piping ∧ Delivers k.curr k.ncalls w v k2 := by
  obtain ⟨ht, hpiping, _⟩ := h.piping (C := fun _ _ => True) (J := fun _ => True)
    (fun _ _ hok => hok) (fun _ e _ => by cases e <;> simp [OnCall]) (fun _ => trivial)
    fun _ _ _ _ _ => trivial
  have hk := ht.syscall hp
  obtain ⟨v, hans, hstream, hbuf, hdel⟩ :=
    write_delivers hpiping.vfork hk.ready pi (k.mailof k.curr).a1 (k.mailof k.curr).a2
  have hact : Atom True (fun _ => True) (fun _ _ => True) k
      (ioTail (k.pipewrite pi (k.mailof k.curr).a1 (k.mailof k.curr).a2)) :=
    .fg hk (.write (a := a) trivial hw)
  have hpiping1 := hpiping.atom hact
  have hturn1 : k1.Turn := step_syscall hp hs ▸ dmaKsyscall_turn k a
  rw [← dmaKsyscall_write hkill hw a, ← step_syscall hp hs] at hans hstream hbuf hdel hpiping1
  generalize k1.calls k.ncalls = w at hans hstream hbuf hdel
  have hinv : k2.Turn ∧ k2.Piping ∧ Delivers k.curr k.ncalls w v k2 := by
    refine hrun.invariant (I := fun k' => k'.Turn ∧ k'.Piping ∧ Delivers k.curr k.ncalls w v k')
      ?_ ⟨hturn1, hpiping1, hdel⟩
    rintro k e k' hcalm hstep ⟨ht, hp, hd⟩
    refine ⟨ht.step hstep, ?_⟩
    exact hp.trail (C := fun _ _ => True) (fun _ _ hp ha hd => hd.act hp ha)
      (step_trail ht (fun _ => hcalm) (fun _ _ _ => trivial) hstep) hd
  exact ⟨w, v, hans, hstream, by rw [hbuf, length_bytesAt], hinv.2⟩

/-- The bytes taken from a call, as its record counts them. -/
theorem Delivers.length_takesOf (h : Delivers s c w v k) (hb : k.Books)
    (hin : k.inCall s = some (.write c)) : (k.calls c).taken ≤ w.buf.length ∧
      (takesOf c (k.moves w.stream)).length = (k.calls c).taken := by
  obtain ⟨t, hcall⟩ := h.call hin
  have hle := hb.le c
  have htaken := hb.taken w.stream c
  rw [hcall] at hle htaken ⊢
  rw [if_pos rfl] at htaken
  refine ⟨hle, ?_⟩
  rw [htaken, List.length_take]
  exact Nat.min_eq_left hle

/-- The shell makes a pipe and traps into a write of three bytes to it. -/
def smallWrite : List Event :=
  Event.call 4 0x40 ++ [.trap { num := 16, a0 := 4, a1 := 0, a2 := 3 }]

/-- A child of the shell traps into a write of 513 bytes to the pipe. -/
def bigWrite : List Event :=
  Event.call 4 0x40 ++ Event.call 1 ++ Event.call 7 0 0 0 { program := .row 100 100 0 0 } ++
    [.trap { num := 16, a0 := 4, a1 := 0, a2 := 513 }]

/-- The child is parked, and the shell reads all of the bytes. -/
def bigRead : List Event := [.publish, .leave] ++ Event.call 5 3 0 600

/-- Nobody sleeps on a pipe that cannot wake them, and what the stream has
    taken from a parked writer and what its mailbox still points at are together
    the buffer of its call, which nobody else is in. -/
theorem parked_callers (h : k.Reachable Calm) (s : Slot) (pi : PipeId) :
    (k.SleepsOn s (.nread pi) → (k.pipes pi).inuse = true ∧ (k.pipes pi).writeopen = true) ∧
    (k.SleepsOn s (.nwrite pi) → (k.pipes pi).inuse = true ∧ (k.pipes pi).readopen = true ∧
      ∃ c, (∀ t, k.inCall t = some (.write c) ↔ t = s) ∧
        takesOf c (k.moves (k.pipes pi).stream) ++
          k.bytesAt s (k.mailof s).a1 (k.mailof s).a2.toNat = (k.calls c).buf) := by
  obtain ⟨_, ⟨_, hp, hl⟩, _⟩ := h.piping (C := fun _ _ => True) (J := fun _ => True)
    (fun _ _ hok => hok) (fun _ e _ => by cases e <;> simp [OnCall]) (fun _ => trivial)
    fun _ _ _ _ _ => trivial
  refine ⟨fun hs => ⟨hp.inuse pi (.inr (hp.reader s pi hs)), hp.reader s pi hs⟩, fun hs => ?_⟩
  obtain ⟨c, hw⟩ := hl.callers.waiting s pi hs
  refine ⟨hp.inuse pi (.inl (hp.writer s pi hs)), hp.writer s pi hs, c, fun t => ?_, ?_⟩
  · exact ⟨fun ht => hl.callers.inj t s c ht hw.inCall, fun ht => ht ▸ hw.inCall⟩
  · rw [hl.books.taken, if_pos hw.stream.symm, hw.left, hw.bytes, List.take_append_drop]

/-- The child of `bigWrite` sleeps with one byte left. -/
theorem parked_callers_child : ∃ (k : Kernel) (s : Slot), k.Reachable Calm ∧
    (k.mailof s).a2 = 1 ∧ (k.pipes 0).readopen = true ∧
    ∃ c, (∀ t, k.inCall t = some (.write c) ↔ t = s) ∧
      takesOf c (k.moves (k.pipes 0).stream) ++
        k.bytesAt s (k.mailof s).a1 (k.mailof s).a2.toNat = (k.calls c).buf := by
  obtain ⟨k, hk, s, hs, hn⟩ : ∃ k : Kernel, k.Reachable Calm ∧ ∃ s, k.SleepsOn s (.nwrite 0) ∧
      (k.mailof s).a2 = 1 := exists_reachable shellConfig (bigWrite ++ [.handler {}]) (by decide +kernel)
  exact ⟨k, s, hk, hn, ((parked_callers hk s 0).2 hs).2⟩

end Kernel

end DmaCpu.Xv6
