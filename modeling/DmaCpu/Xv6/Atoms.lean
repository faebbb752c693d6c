-- SUMMARY: Every event of the kernel as a sequence of small actions.
import DmaCpu.Xv6.Effects

/-!
# Actions

An invariant is proved for the actions below; that it holds in every run
follows, because each event is a sequence of them. A signal that hits a process
suspended in `fork` wakes or frees it although its child runs in its image; `Q`
stands for the assumption that there is no such signal (`Calm`), and what does
not need it is proved for any `Q`.
-/
namespace DmaCpu.Xv6

/-- What the process table says of a process, without its image and heap. -/
structure Ident where
  state : ProcState
  chan : Chan
  pid : Word
  ppid : Word
  xstate : Word

def Proc.ident (p : Proc) : Ident := ⟨p.state, p.chan, p.pid, p.ppid, p.xstate⟩

/-- The counters of the open files, and the file behind each descriptor. -/
structure Files where
  ref : FileId → Nat
  own : Slot × Fd → Option FileId

/-- Control, and what only system calls change. -/
structure Env where
  ctl : Control
  inCall : Slot → Option Call
  initpid : Word
  nextpid : Word
  fsready : Bool
  dmaDisk : Bool

variable {k k' : Kernel} {i q : Slot} {rx : List Byte} {p : Proc}

namespace Kernel

theorem Ready.live (h : k.Ready i) : k.Live i := by
  rcases h with h | h <;> simp [Live, h]

theorem live_of_sleeping (h : (k.proc i).state = .sleeping) : k.Live i := by
  simp [Live, h]

def ident (k : Kernel) (i : Slot) : Ident := (k.proc i).ident

def files (k : Kernel) : Files := ⟨fun f => (k.ftable f).ref, fun x => k.ofile x.1 x.2⟩

def env (k : Kernel) : Env := ⟨k.ctl, k.inCall, k.initpid, k.nextpid, k.fsready, k.dmaDisk⟩

/-- Two states differ at most in the console, the clock, the arena, deadlines
    and signal state. -/
structure Frame (k k' : Kernel) : Prop where
  face : k'.face = k.face
  ident : k'.ident = k.ident
  files : k'.files = k.files
  env : k'.env = k.env

theorem Frame.refl (k : Kernel) : Frame k k := ⟨rfl, rfl, rfl, rfl⟩

theorem Frame.trans {k'' : Kernel} (h : Frame k k') (h' : Frame k' k'') : Frame k k'' :=
  ⟨h'.face.trans h.face, h'.ident.trans h.ident, h'.files.trans h.files, h'.env.trans h.env⟩

theorem setProc_ident (h : p.ident = k.ident i) : (k.setProc i p).ident = k.ident := by
  funext j
  by_cases hj : j = i
  · subst hj
    simpa [Kernel.ident, Kernel.setProc] using h
  · simp [Kernel.ident, Kernel.setProc, hj]

theorem Frame.setProc (h : p.place = (k.proc i).place) (hid : p.ident = k.ident i) :
    Frame k (k.setProc i p) :=
  ⟨setProc_face h, setProc_ident hid, rfl, rfl⟩

/-! ## Signals that spare suspended parents -/

/-- No process of the foreground job is suspended in `fork`, and all of them are
    in `P`. -/
def FreeJob (P : Slot → Prop) (k : Kernel) : Prop := ∀ i ∈ k.fgJob, ¬ k.IsSuspended i ∧ P i

/-- Whenever one of these bytes is delivered as Ctrl-C, the job is free. -/
def CalmBytes (P : Slot → Prop) : List Byte → Kernel → Prop
  | [], _ => True
  | b :: rx, k => consRoom k.cons →
      (¬ k.cons.raw → b = 3 → k.FreeJob P) ∧ CalmBytes P rx (k.consByte b)

def CalmFire (P : Slot → Prop) (k : Kernel) (f : Fire) : Prop :=
  if k.consOn then
    (f.timer ∧ ¬ k.tickTaken →
      CalmBytes P f.rx ({ k with tickTaken := true }.tickHead f.now)) ∧
    CalmBytes P f.rx2 (k.timerFire f)
  else CalmBytes P f.rx (k.tickHead f.now)

/-- A `kill` does not name a process that is suspended in `fork`. -/
def CalmKill (k : Kernel) : Prop :=
  Sys.ofNum (k.mailof k.curr).num = .kill →
    ∀ i, (k.proc i).pid = (k.mailof k.curr).a0 → ¬ k.IsSuspended i

/-- No signal that this event delivers hits a process suspended in `fork`, and
    Ctrl-C hits only processes in `P`. -/
def CalmFor (P : Slot → Prop) (k : Kernel) : Event → Prop
  | .fire f => k.CalmFire P f
  | .drain rx => CalmBytes P rx k
  | .handler a => CalmBytes P a.rx k ∧ (k.phase = .entered .syscall → k.CalmKill)
  | _ => True

/-- No signal that this event delivers hits a process suspended in `fork`. -/
abbrev Calm : Kernel → Event → Prop := CalmFor fun _ => True

section Decidable

variable {P : Slot → Prop} [DecidablePred P]

instance (k : Kernel) (i : Slot) : Decidable (k.IsSuspended i) :=
  inferInstanceAs (Decidable (∃ c, k.Suspended i c))

instance (k : Kernel) : Decidable (k.FreeJob P) :=
  inferInstanceAs (Decidable (∀ i ∈ k.fgJob, ¬ k.IsSuspended i ∧ P i))

instance decidableCalmBytes : (rx : List Byte) → (k : Kernel) → Decidable (CalmBytes P rx k)
  | [], _ => .isTrue trivial
  | b :: rx, k =>
    have := decidableCalmBytes rx (k.consByte b)
    inferInstanceAs (Decidable (consRoom k.cons →
      (¬ k.cons.raw → b = 3 → k.FreeJob P) ∧ CalmBytes P rx (k.consByte b)))

instance (k : Kernel) (f : Fire) : Decidable (k.CalmFire P f) := by
  unfold CalmFire
  infer_instance

instance (k : Kernel) : Decidable k.CalmKill :=
  inferInstanceAs (Decidable (_ → ∀ i, _ → ¬ k.IsSuspended i))

instance (k : Kernel) (e : Event) : Decidable (k.CalmFor P e) := by
  cases e <;> unfold CalmFor <;> infer_instance

end Decidable

/-! ## Background actions -/

/-- What a tick or console input does to other processes. If `Q` holds, no
    signal hits a suspended process, and Ctrl-C hits only processes in `P`. -/
inductive Bg (Q : Prop) (P : Slot → Prop) (k : Kernel) : Kernel → Prop where
  | frame {k' : Kernel} (h : Frame k k') : Bg Q P k k'
  | wake {i : Slot} (h : k.SleepsOn i .ticks ∨ k.SleepsOn i .selwaitTo) : Bg Q P k (k.wake i)
  | select {i : Slot} (v : Word) (h : k.SleepsOn i .selwaitInf ∨ k.SleepsOn i .selwaitTo) :
      Bg Q P k (k.kcomplete i v)
  | interrupt {i : Slot} (h : (k.proc i).state = .sleeping)
      (hs : Q → ¬ k.IsSuspended i ∧ P i) : Bg Q P k (k.kcomplete i (-1))
  | terminate {i : Slot} (status : Word) (h : (k.proc i).state = .sleeping)
      (hs : Q → ¬ k.IsSuspended i) : Bg Q P k (k.terminate i status)

abbrev BgTrail (Q : Prop) (P : Slot → Prop) := Relation.ReflTransGen (Bg Q P)

variable {Q : Prop} {P : Slot → Prop}

theorem not_suspended_of_either {c c' : Chan} (h : k.SleepsOn i c ∨ k.SleepsOn i c')
    (hc : ∀ d, c ≠ .proc d) (hc' : ∀ d, c' ≠ .proc d) (d : Slot) : ¬ k.Suspended i d :=
  h.elim (·.not_suspended hc d) (·.not_suspended hc' d)

/-- A process that can run is not suspended. -/
theorem Ready.not_isSuspended (h : k.Ready i) : ¬ k.IsSuspended i := by
  rintro ⟨c, hc, _⟩
  rcases h with h | h <;> simp [h, SleepsOn] at hc

/-- What becomes of the processes when process `i` ends: whoever is woken is
    woken first, and then the slot is out of use. -/
structure Ends (k : Kernel) (i : Slot) (m k' : Kernel) : Prop where
  eases : Eases (· = i) k m
  alone : ∀ q, ¬ m.SleepsOn q (.proc i)
  dead : ¬ k'.Live i
  others : ∀ q, q ≠ i → k'.proc q = m.proc q
  ended : k'.ended = Function.update m.ended i (m.ended i + 1)
  rest : { k'.face with place := m.face.place, ended := m.ended } = m.face

theorem terminate_ends (k : Kernel) (i : Slot) (status : Word) :
    ∃ m, Ends k i m (k.terminate i status) := by
  obtain ⟨m, b, heq, hm, hnone⟩ := terminate_eq k i status
  refine ⟨m, hm, hnone, ?_, ?_, ?_, ?_⟩
  · rw [heq]
    simp only [Live, bury, markEnd, setProc, Function.update_self]
    split <;> simp
  · intro q hq
    rw [heq]
    simp [bury, markEnd, setProc, hq]
  · rw [heq]
    rfl
  · rw [heq]
    rfl

/-- All background actions but termination only wake sleepers, and unsuspended
    ones if `Q` holds. -/
theorem Bg.eases_or {R : Slot → Prop} (hR : Q ∨ ∀ c, R c) (h : Bg Q P k k') :
    Wakes R k k' ∧ k'.face.ends = k.face.ends ∨
      ∃ i m, (k.proc i).state = .sleeping ∧ (Q → ¬ k.IsSuspended i) ∧ Ends k i m k' := by
  cases h with
  | frame h => exact .inl ⟨(Eases.of_face h.face).toWakes, congrArg Face.ends h.face⟩
  | wake h =>
    have hns := not_suspended_of_either h (by simp) (by simp)
    exact .inl ⟨.wake (h.elim And.left And.left) fun c hc => absurd hc (hns c), rfl⟩
  | select v h =>
    have hns := not_suspended_of_either h (by simp) (by simp)
    exact .inl ⟨.kcomplete (h.elim And.left And.left) fun c hc => absurd hc (hns c), rfl⟩
  | interrupt h hs =>
    exact .inl ⟨.kcomplete h fun c hc =>
      hR.elim (fun hq => absurd ⟨c, hc⟩ (hs hq).1) (· c), rfl⟩
  | terminate status h hs =>
    obtain ⟨m, hm⟩ := terminate_ends k _ status
    exact .inr ⟨_, m, h, hs, hm⟩

theorem Ends.ctl {m : Kernel} (h : Ends k i m k') : k'.ctl = k.ctl :=
  (congrArg Face.ctl h.rest).trans h.eases.ctl

theorem Ends.inCall {m : Kernel} (h : Ends k i m k') : k'.inCall = k.inCall :=
  (congrArg Face.inCall h.rest).trans h.eases.inCall

theorem Ends.sleepsOn {m : Kernel} {c : Chan} (h : Ends k i m k')
    (hs : k'.SleepsOn q c) : m.SleepsOn q c := by
  have hne : q ≠ i := by
    rintro rfl
    exact h.dead ⟨by simp [hs.1], by simp [hs.1]⟩
  rwa [SleepsOn, h.others q hne] at hs

section

variable (h : Bg Q P k k')
include h

/-- What holds without assumptions on signals. -/
theorem Bg.wakes_or : Wakes (fun _ => True) k k' ∨
    ∃ i m, (k.proc i).state = .sleeping ∧ Ends k i m k' :=
  (h.eases_or (.inr fun _ => trivial)).imp And.left fun ⟨i, m, hsl, _, he⟩ => ⟨i, m, hsl, he⟩

theorem Bg.sleepsOn {c : Chan} (hs : k'.SleepsOn q c) : k.SleepsOn q c := by
  rcases h.wakes_or with he | ⟨i, m, _, he⟩
  · exact (he.slot q).sleepsOn hs
  · exact (he.eases.slot q).sleepsOn (he.sleepsOn hs)

theorem Bg.isSuspended (hs : k'.IsSuspended q) : k.IsSuspended q := by
  obtain ⟨c, hc, hne⟩ := hs
  exact ⟨c, h.sleepsOn hc, hne⟩

theorem Bg.ready (hq : k.Ready q) : k'.Ready q := by
  rcases h.wakes_or with he | ⟨i, m, hsl, he⟩
  · exact (he.slot q).ready hq
  · have hne : q ≠ i := by
      rintro rfl
      rcases hq with hq | hq <;> simp [hq] at hsl
    rw [Ready, he.others q hne]
    exact (he.eases.slot q).ready hq

theorem Bg.ctl : k'.ctl = k.ctl := by
  rcases h.wakes_or with he | ⟨i, m, _, he⟩ <;> exact he.ctl

theorem Bg.inCall : k'.inCall = k.inCall := by
  rcases h.wakes_or with he | ⟨i, m, _, he⟩ <;> exact he.inCall

end

section

variable (h : BgTrail Q P k k')
include h

theorem BgTrail.isSuspended (hs : k'.IsSuspended q) : k.IsSuspended q := by
  induction h with
  | refl => exact hs
  | tail _ h ih => exact ih (h.isSuspended hs)

theorem BgTrail.ready (hq : k.Ready q) : k'.Ready q := by
  induction h with
  | refl => exact hq
  | tail _ h ih => exact h.ready ih

theorem BgTrail.ctl : k'.ctl = k.ctl := by
  induction h with
  | refl => rfl
  | tail _ h ih => exact h.ctl.trans ih

theorem BgTrail.curr : k'.curr = k.curr :=
  congrArg Control.curr h.ctl

theorem BgTrail.inCall : k'.inCall = k.inCall := by
  induction h with
  | refl => rfl
  | tail _ h ih => exact h.inCall.trans ih

end

/-! ## Ticks and console input are background -/

theorem Bg.trail (h : Bg Q P k k') : BgTrail Q P k k' := .single h

theorem Frame.trail (h : Frame k k') : BgTrail Q P k k' := (Bg.frame h).trail

theorem setProc_trail (h : p.place = (k.proc i).place)
    (hid : p.ident = k.ident i) : BgTrail Q P k (k.setProc i p) :=
  (Frame.setProc h hid).trail

theorem BgTrail.foldl {α : Type} {f : Kernel → α → Kernel} (hf : ∀ k a, BgTrail Q P k (f k a))
    (l : List α) (k : Kernel) : BgTrail Q P k (l.foldl f k) :=
  List.foldlRecOn l f .refl fun k' h a _ => h.trans (hf k' a)

theorem sigintOne_trail {v : Slot} (hs : Q → ¬ k.IsSuspended v ∧ P v) :
    BgTrail Q P k (k.sigintOne v) := by
  simp only [sigintOne]
  split_ifs with hctx hpend hsl hsl
  · exact .refl
  · exact (Bg.interrupt hsl hs).trail.trans (setProc_trail rfl rfl)
  · exact setProc_trail rfl rfl
  · exact (Bg.terminate _ hsl fun hq => (hs hq).1).trail
  · exact setProc_trail rfl rfl

theorem foldl_sigintOne_trail {l : List Slot} (hs : Q → ∀ i ∈ l, ¬ k.IsSuspended i ∧ P i) :
    BgTrail Q P k (l.foldl sigintOne k) := by
  induction l generalizing k with
  | nil => exact .refl
  | cons v l ih =>
    have hv : BgTrail Q P k (k.sigintOne v) :=
      sigintOne_trail fun hq => hs hq v (List.mem_cons_self ..)
    refine hv.trans (ih fun hq i hi => ?_)
    obtain ⟨hsi, hPi⟩ := hs hq i (List.mem_cons_of_mem v hi)
    exact ⟨fun hsus => hsi (hv.isSuspended hsus), hPi⟩

theorem consByte_trail {b : Byte} (h : Q → ¬ k.cons.raw → b = 3 → k.FreeJob P) :
    BgTrail Q P k (k.consByte b) := by
  have hcons : ∀ c, BgTrail Q P k (k.setCons c) := fun c => Frame.trail ⟨rfl, rfl, rfl, rfl⟩
  rw [consByte]
  split
  · exact hcons _
  next hraw =>
    split
    next hb => exact foldl_sigintOne_trail fun hq => h hq hraw hb
    next =>
      dsimp only
      generalize (if b = 13 then (10 : Byte) else b) = b'
      split_ifs
      · exact hcons _
      · exact .refl
      · exact hcons _
      · exact hcons _
      · exact .refl

theorem consLoop_trail (h : Q → CalmBytes P rx k) : BgTrail Q P k (consLoop rx k) := by
  induction rx generalizing k with
  | nil => exact .refl
  | cons b rx ih =>
    rw [consLoop]
    split
    next hroom =>
      exact (consByte_trail fun hq => (h hq hroom).1).trans (ih fun hq => (h hq hroom).2)
    next => exact .refl

theorem selWake_trail (k : Kernel) : BgTrail Q P k k.selWake := by
  refine BgTrail.foldl (fun k q => ?_) _ k
  split
  next h => exact (Bg.select _ h).trail
  next => exact .refl

theorem consPoll_trail (h : Q → CalmBytes P rx k) : BgTrail Q P k (k.consPoll rx) := by
  simp only [consPoll]
  split
  · exact (consLoop_trail h).trans (selWake_trail _)
  · exact consLoop_trail h

theorem pollFg_trail (h : Q → CalmBytes P rx k) : BgTrail Q P k (k.pollFg rx) := by
  rw [pollFg]
  split
  · exact consPoll_trail h
  · exact .refl

theorem tickSlot_trail (now : Word) (s : Kernel × Option Word) (i : Slot) :
    BgTrail Q P s.1 (tickSlot now s i).1 := by
  simp only [tickSlot]
  split
  next h =>
    split
    · exact (Bg.wake h).trail
    · split <;> exact .refl
  next => exact .refl

theorem tickWake_trail (k : Kernel) (now : Word) : BgTrail Q P k (k.tickWake now) := by
  have hfold : ∀ (l : List Slot) (s : Kernel × Option Word),
      BgTrail Q P s.1 (l.foldl (tickSlot now) s).1 := by
    intro l
    induction l with
    | nil => exact fun s => .refl
    | cons i l ih => exact fun s => (tickSlot_trail now s i).trans (ih _)
  have hall := hfold (List.finRange nproc) (k, none)
  unfold tickWake
  generalize (List.finRange nproc).foldl (tickSlot now) (k, none) = s at hall ⊢
  exact hall.trans (Frame.trail ⟨rfl, rfl, rfl, rfl⟩)

theorem tickHead_trail (k : Kernel) (now : Word) : BgTrail Q P k (k.tickHead now) := by
  have hcount : BgTrail Q P k { k with ticks := k.ticks + 1 } := Frame.trail ⟨rfl, rfl, rfl, rfl⟩
  simp only [tickHead]
  split
  · exact hcount.trans (tickWake_trail _ now)
  · exact hcount

theorem fireIncome_trail {f : Fire} (h : Q → k.CalmFire P f) : BgTrail Q P k (k.fireIncome f) := by
  unfold CalmFire at h
  rw [fireIncome]
  split
  next hon =>
    rw [if_pos hon] at h
    have htimer : BgTrail Q P k (k.timerFire f) := by
      rw [timerFire]
      split
      next ht =>
        have hflag : BgTrail Q P k { k with tickTaken := true } := Frame.trail ⟨rfl, rfl, rfl, rfl⟩
        exact (hflag.trans (tickHead_trail _ _)).trans (pollFg_trail fun hq => (h hq).1 ht)
      next => exact .refl
    exact htimer.trans (pollFg_trail fun hq => (h hq).2)
  next hoff =>
    rw [if_neg hoff] at h
    exact (tickHead_trail k _).trans (pollFg_trail h)

end Kernel

end DmaCpu.Xv6
