-- SUMMARY: What the kernel's functions do to sleepers, mailboxes and the bytes in pipes.
import DmaCpu.Xv6.FileRun
import Mathlib.Data.Fintype.Card

/-!
# Effects

Most functions of the kernel only wake processes and put a result in the
mailbox of a process that they wake. `Eases R` says that of a piece of code; the
parents that it may release from `fork` are those of the slots in `R`.
-/
namespace DmaCpu.Xv6

open Finset

/-- What a process and a pipe end see of a process: where it is and in which
    image. -/
structure Place where
  state : ProcState
  chan : Chan
  img : Img
  deriving DecidableEq

def Proc.place (p : Proc) : Place := ⟨p.state, p.chan, p.img⟩

/-- A process without its heap and its signal state. -/
def Proc.bare (p : Proc) : Proc :=
  { p with heapbase := 0, heapmax := 0, brk := 0, sigctx := 0, sigpend := .idle }

/-- The bytes in a pipe, without the flags of its ends. -/
structure RingPart where
  data : Fin pipesize → Byte
  nread : Word
  nwrite : Word
  stream : Nat

def Pipe.ring (p : Pipe) : RingPart := ⟨p.data, p.nread, p.nwrite, p.stream⟩

/-- Whose turn it is. -/
structure Control where
  curr : Slot
  phase : Phase
  parked : Bool
  waspark : Bool
  deriving DecidableEq

/-- The part of the state that records where bytes and results are. -/
structure Face where
  ctl : Control
  place : Slot → Place
  mail : Img → Mail
  r0 : Img → Word
  mem : Img → Word → Byte
  nimg : Img
  ring : PipeId → RingPart
  moves : Nat → List Move
  nstream : Nat
  calls : Nat → WriteCall
  ncalls : Nat
  inCall : Slot → Option Call
  ended : Slot → Nat
  ends : PipeId → Bool × Bool × Bool

variable {p : Proc} {k k' k'' : Kernel} {q i : Slot} {R : Slot → Prop} {c : Chan} {pi : PipeId}
  {v : Kernel → Slot → Word}

namespace Kernel

def ctl (k : Kernel) : Control := ⟨k.curr, k.phase, k.parked, k.waspark⟩

def face (k : Kernel) : Face where
  ctl := k.ctl
  place i := (k.proc i).place
  mail := k.mail
  r0 := k.r0
  mem := k.mem
  nimg := k.nimg
  ring pi := (k.pipes pi).ring
  moves := k.moves
  nstream := k.nstream
  calls := k.calls
  ncalls := k.ncalls
  inCall := k.inCall
  ended := k.ended
  ends pi := ((k.pipes pi).readopen, (k.pipes pi).writeopen, (k.pipes pi).inuse)

/-- Process `i` is suspended in `fork`. -/
def IsSuspended (k : Kernel) (i : Slot) : Prop := ∃ c, k.Suspended i c

/-! ## Relations between the states before and after -/

/-- What may happen to the process in slot `q`: nothing, a sleeper wakes (a
    suspended one only if its child is in `R`), a zombie is freed. -/
inductive SlotEases (R : Slot → Prop) (k k' : Kernel) (q : Slot) : Prop where
  | same (h : (k'.proc q).place = (k.proc q).place)
  | woken (himg : k'.img q = k.img q) (h : (k.proc q).state = .sleeping)
      (hR : ∀ c, k.Suspended q c → R c) (h' : (k'.proc q).state = .runnable)
  | freed (himg : k'.img q = k.img q) (h : (k.proc q).state = .zombie)
      (h' : (k'.proc q).state = .unused)

/-- The words of image `j` that the kernel writes are unchanged. -/
def SameImg (k k' : Kernel) (j : Img) : Prop :=
  k'.mail j = k.mail j ∧ k'.r0 j = k.r0 j ∧ k'.mem j = k.mem j

/-- Process `t` was asleep and no longer is. -/
def Woken (k k' : Kernel) (t : Slot) : Prop :=
  (k.proc t).state = .sleeping ∧ (k'.proc t).state ≠ .sleeping

/-- Code that wakes processes and writes only to images of processes it wakes. -/
structure Wakes (R : Slot → Prop) (k k' : Kernel) : Prop where
  slot : ∀ q, SlotEases R k k' q
  image : ∀ j, SameImg k k' j ∨ ∃ t, k.img t = j ∧ Woken k k' t
  ctl : k'.ctl = k.ctl
  nimg : k'.nimg = k.nimg
  ring : ∀ pi, (k'.pipes pi).ring = (k.pipes pi).ring
  moves : k'.moves = k.moves
  nstream : k'.nstream = k.nstream
  calls : k'.calls = k.calls
  ncalls : k'.ncalls = k.ncalls
  inCall : k'.inCall = k.inCall
  ended : k'.ended = k.ended

/-- What may happen to the ends of a pipe: one closes, and nobody is left who is
    parked at the other. -/
structure Shut (k k' : Kernel) (pi : PipeId) : Prop where
  read : (k'.pipes pi).readopen = (k.pipes pi).readopen ∨
    (k'.pipes pi).readopen = false ∧ ∀ s, ¬ k'.SleepsOn s (.nwrite pi)
  write : (k'.pipes pi).writeopen = (k.pipes pi).writeopen ∨
    (k'.pipes pi).writeopen = false ∧ ∀ s, ¬ k'.SleepsOn s (.nread pi)
  inuse : (k'.pipes pi).inuse = (k.pipes pi).inuse ∨
    (k'.pipes pi).readopen = false ∧ (k'.pipes pi).writeopen = false

/-- The call of the parked writer `s` is complete with the count in its mailbox. -/
def ShortCount (k k' : Kernel) (s : Slot) : Prop :=
  k'.r0 (k.img s) = (k.mailof s).done ∧
  k'.mail (k.img s) = { k.mailof s with ret := (k.mailof s).done, done := 1 }

/-- Code that wakes a process parked on a pipe only because the other end is
    closed. -/
structure Eases (R : Slot → Prop) (k k' : Kernel) : Prop extends Wakes R k k' where
  shut : ∀ pi, Shut k k' pi
  reader : ∀ s pi, k.SleepsOn s (.nread pi) → Woken k k' s → (k'.pipes pi).writeopen = false
  writer : ∀ s pi, k.SleepsOn s (.nwrite pi) → Woken k k' s → (k'.pipes pi).readopen = false
  /-- Unless another process of the image is woken too. -/
  count : ∀ s pi, k.SleepsOn s (.nwrite pi) → Woken k k' s →
    (∀ t, k.img t = k.img s → Woken k k' t → t = s) → ShortCount k k' s

theorem place_eq_iff {p' : Proc} :
    p'.place = p.place ↔ p'.state = p.state ∧ p'.chan = p.chan ∧ p'.img = p.img := by
  simp [Proc.place]

section

variable (h : SlotEases R k k' q)
include h

theorem SlotEases.img : k'.img q = k.img q := by
  cases h with
  | same h => exact (place_eq_iff.mp h).2.2
  | woken himg => exact himg
  | freed himg => exact himg

/-- A process that sleeps afterwards slept before, on the same channel. -/
theorem SlotEases.sleepsOn (hs : k'.SleepsOn q c) : k.SleepsOn q c := by
  cases h with
  | same h =>
    obtain ⟨hst, hch, _⟩ := place_eq_iff.mp h
    exact ⟨hst ▸ hs.1, hch ▸ hs.2⟩
  | woken _ _ _ h' => simp [SleepsOn, h'] at hs
  | freed _ _ h' => simp [SleepsOn, h'] at hs

theorem SlotEases.suspended {c : Slot}
    (hs : k'.Suspended q c) : k.Suspended q c :=
  ⟨h.sleepsOn hs.1, hs.2⟩

theorem SlotEases.trans
    (h' : SlotEases R k' k'' q) : SlotEases R k k'' q := by
  cases h with
  | same h =>
    obtain ⟨hst, hch, himg⟩ := place_eq_iff.mp h
    cases h' with
    | same h' => exact .same (h'.trans h)
    | woken hi hsl hR hr =>
      refine .woken (hi.trans himg) (hst ▸ hsl) ?_ hr
      intro c hc
      exact hR c ⟨⟨hst ▸ hc.1.1, hch ▸ hc.1.2⟩, hc.2⟩
    | freed hi hz hu => exact .freed (hi.trans himg) (hst ▸ hz) hu
  | woken himg hsl hR hr =>
    cases h' with
    | same h' =>
      obtain ⟨hst, _, hi⟩ := place_eq_iff.mp h'
      exact .woken (hi.trans himg) hsl hR (hst.trans hr)
    | woken _ hsl' => simp [hr] at hsl'
    | freed _ hz => simp [hr] at hz
  | freed himg hz hu =>
    cases h' with
    | same h' =>
      obtain ⟨hst, _, hi⟩ := place_eq_iff.mp h'
      exact .freed (hi.trans himg) hz (hst.trans hu)
    | woken _ hsl' => simp [hu] at hsl'
    | freed _ hz' => simp [hu] at hz'

theorem SlotEases.sleeping (hs : (k'.proc q).state = .sleeping) :
    (k.proc q).state = .sleeping :=
  (h.sleepsOn ⟨hs, rfl⟩).1

theorem SlotEases.ready (hq : k.Ready q) : k'.Ready q := by
  cases h with
  | same h => simpa [Ready, (place_eq_iff.mp h).1] using hq
  | woken _ _ _ hr => exact .inl hr
  | freed _ hz => simp [Ready, hz] at hq

theorem SlotEases.live_iff : k'.Live q ↔ k.Live q := by
  cases h with
  | same h => simp [Live, (place_eq_iff.mp h).1]
  | woken _ hsl _ hr => simp [Live, hsl, hr]
  | freed _ hz hu => simp [Live, hz, hu]

end

/-! ## Eases -/

theorem SameImg.trans {j : Img} (h : SameImg k k' j) (h' : SameImg k' k'' j) : SameImg k k'' j :=
  ⟨h'.1.trans h.1, h'.2.1.trans h.2.1, h'.2.2.trans h.2.2⟩

theorem Wakes.of_face (h : { k'.face with ends := k.face.ends } = k.face) : Wakes R k k' where
  slot q := .same (congrFun (congrArg Face.place h) q)
  image j := .inl ⟨congrFun (congrArg Face.mail h) j, congrFun (congrArg Face.r0 h) j,
    congrFun (congrArg Face.mem h) j⟩
  ctl := congrArg Face.ctl h
  nimg := congrArg Face.nimg h
  ring pi := congrFun (congrArg Face.ring h) pi
  moves := congrArg Face.moves h
  nstream := congrArg Face.nstream h
  calls := congrArg Face.calls h
  ncalls := congrArg Face.ncalls h
  inCall := congrArg Face.inCall h
  ended := congrArg Face.ended h

/-- A process that is awake after the first part stays awake. -/
theorem Woken.trans_left {t : Slot} (h : Woken k k' t) (h' : Wakes R k' k'') : Woken k k'' t :=
  ⟨h.1, fun hs => h.2 ((h'.slot t).sleeping hs)⟩

theorem Woken.trans_right {t : Slot} (h : Wakes R k k') (h' : Woken k' k'' t) : Woken k k'' t :=
  ⟨(h.slot t).sleeping h'.1, h'.2⟩

theorem Wakes.trans {R : Slot → Prop} {k k' k'' : Kernel}
    (h : Wakes R k k') (h' : Wakes R k' k'') : Wakes R k k'' where
  slot q := (h.slot q).trans (h'.slot q)
  image j := by
    rcases h.image j with hsame | ⟨t, ht, hw⟩
    · rcases h'.image j with hsame' | ⟨t, ht, hw⟩
      · exact .inl (hsame.trans hsame')
      · exact .inr ⟨t, (h.slot t).img ▸ ht, .trans_right h hw⟩
    · exact .inr ⟨t, ht, hw.trans_left h'⟩
  ctl := h'.ctl.trans h.ctl
  nimg := h'.nimg.trans h.nimg
  ring pi := (h'.ring pi).trans (h.ring pi)
  moves := h'.moves.trans h.moves
  nstream := h'.nstream.trans h.nstream
  calls := h'.calls.trans h.calls
  ncalls := h'.ncalls.trans h.ncalls
  inCall := h'.inCall.trans h.inCall
  ended := h'.ended.trans h.ended

theorem Shut.of_ends (h : k'.face.ends = k.face.ends) (pi : PipeId) : Shut k k' pi := by
  have hpi := congrFun h pi
  simp only [face, Prod.mk.injEq] at hpi
  exact ⟨.inl hpi.1, .inl hpi.2.1, .inl hpi.2.2⟩

theorem Shut.readopen (h : Shut k k' pi)
    (hc : (k.pipes pi).readopen = false) : (k'.pipes pi).readopen = false := by
  rcases h.read with he | he
  · exact he.trans hc
  · exact he.1

theorem Shut.writeopen (h : Shut k k' pi)
    (hc : (k.pipes pi).writeopen = false) : (k'.pipes pi).writeopen = false := by
  rcases h.write with he | he
  · exact he.trans hc
  · exact he.1

theorem Shut.trans (h : Shut k k' pi) (h' : Shut k' k'' pi)
    (hw : ∀ s, k''.SleepsOn s (.nwrite pi) → k'.SleepsOn s (.nwrite pi))
    (hr : ∀ s, k''.SleepsOn s (.nread pi) → k'.SleepsOn s (.nread pi)) : Shut k k'' pi := by
  constructor
  · rcases h'.read with he' | hc'
    · rcases h.read with he | ⟨hc, hs⟩
      · exact .inl (he'.trans he)
      · exact .inr ⟨he'.trans hc, fun s hsl => hs s (hw s hsl)⟩
    · exact .inr hc'
  · rcases h'.write with he' | hc'
    · rcases h.write with he | ⟨hc, hs⟩
      · exact .inl (he'.trans he)
      · exact .inr ⟨he'.trans hc, fun s hsl => hs s (hr s hsl)⟩
    · exact .inr hc'
  · rcases h'.inuse with he' | hc'
    · rcases h.inuse with he | ⟨hr, hwr⟩
      · exact .inl (he'.trans he)
      · exact .inr ⟨h'.readopen hr, h'.writeopen hwr⟩
    · exact .inr hc'

theorem Eases.of_face (h : k'.face = k.face) : Eases R k k' := by
  have hends : k'.face.ends = k.face.ends := congrArg Face.ends h
  have hw : Wakes R k k' := .of_face (by rw [← hends]; exact h)
  have hnone : ∀ s, ¬ Woken k k' s := by
    rintro s ⟨hs, hn⟩
    have hst : (k'.proc s).place = (k.proc s).place := congrFun (congrArg Face.place h) s
    exact hn ((place_eq_iff.mp hst).1.trans hs)
  exact { hw with
    shut := Shut.of_ends hends
    reader := fun s _ _ hs => absurd hs (hnone s)
    writer := fun s _ _ hs => absurd hs (hnone s)
    count := fun s _ _ hs => absurd hs (hnone s) }

theorem Eases.refl (k : Kernel) : Eases R k k := .of_face rfl

/-- A process that sleeps after the first part sleeps on the same channel. -/
theorem SlotEases.still_sleepsOn (h : SlotEases R k k' q) (hs : k.SleepsOn q c)
    (hs' : (k'.proc q).state = .sleeping) : k'.SleepsOn q c :=
  ⟨hs', ((h.sleepsOn ⟨hs', rfl⟩).2.symm.trans hs.2)⟩

theorem Eases.trans (h : Eases R k k') (h' : Eases R k' k'') : Eases R k k'' := by
  -- a process woken in two parts is woken in the first or sleeps through it
  have hsplit : ∀ s c, k.SleepsOn s c → Woken k k'' s →
      Woken k k' s ∨ k'.SleepsOn s c ∧ Woken k' k'' s := by
    intro s c hs hw
    by_cases hsl : (k'.proc s).state = .sleeping
    · exact .inr ⟨(h.slot s).still_sleepsOn hs hsl, hsl, hw.2⟩
    · exact .inl ⟨hw.1, hsl⟩
  refine { h.toWakes.trans h'.toWakes with
    shut := fun pi => (h.shut pi).trans (h'.shut pi) (fun s => (h'.slot s).sleepsOn)
      fun s => (h'.slot s).sleepsOn
    reader := fun s pi hs hw => ?_
    writer := fun s pi hs hw => ?_
    count := fun s pi hs hw halone => ?_ }
  · rcases hsplit s _ hs hw with hw | ⟨hs', hw⟩
    · exact (h'.shut pi).writeopen (h.reader s pi hs hw)
    · exact h'.reader s pi hs' hw
  · rcases hsplit s _ hs hw with hw | ⟨hs', hw⟩
    · exact (h'.shut pi).readopen (h.writer s pi hs hw)
    · exact h'.writer s pi hs' hw
  · rcases hsplit s _ hs hw with hw | ⟨hs', hw⟩
    · -- the second part does not write to the image: it would wake a process of it
      have hfirst := h.count s pi hs hw fun t ht hwt => halone t ht (hwt.trans_left h'.toWakes)
      rcases h'.image (k.img s) with hsame | ⟨t, ht, hwt⟩
      · exact ⟨hsame.2.1.trans hfirst.1, hsame.1.trans hfirst.2⟩
      · have hts := halone t ((h.slot t).img ▸ ht) (.trans_right h.toWakes hwt)
        exact absurd (hts ▸ hwt.1) hw.2
    · have himg := (h.slot s).img
      have hsecond := h'.count s pi hs' hw fun t ht hwt =>
        halone t ((h.slot t).img.symm.trans (ht.trans himg)) (.trans_right h.toWakes hwt)
      rcases h.image (k.img s) with hsame | ⟨t, ht, hwt⟩
      · have hmail : k'.mailof s = k.mailof s := by rw [mailof, himg, hsame.1, mailof]
        rwa [ShortCount, himg, hmail] at hsecond
      · have hts := halone t ht (hwt.trans_left h'.toWakes)
        exact absurd hs'.1 (hts ▸ hwt.2)

theorem Eases.from_face (h' : Eases R k' k'') (h : k'.face = k.face) : Eases R k k'' :=
  (Eases.of_face h).trans h'

theorem Eases.foldl {α : Type} {f : Kernel → α → Kernel} (hf : ∀ k a, Eases R k (f k a))
    (l : List α) (k : Kernel) : Eases R k (l.foldl f k) :=
  List.foldlRecOn l f (.refl k) fun k' h a _ => h.trans (hf k' a)

/-- What a loop body makes true of its own slot stays true until the loop ends. -/
theorem not_sleepsOn_foldl {f : Kernel → Slot → Kernel} (hf : ∀ k q, Eases R k (f k q))
    (hc : ∀ k q, ¬ (f k q).SleepsOn q c) (l : List Slot)
    (k : Kernel) : ∀ q ∈ l, ¬ (l.foldl f k).SleepsOn q c := by
  induction l generalizing k with
  | nil => simp
  | cons a l ih =>
    intro q hq hs
    rcases List.mem_cons.mp hq with rfl | hq
    · exact hc k q (((Eases.foldl hf l (f k q)).slot q).sleepsOn hs)
    · exact ih (f k a) q hq hs

section

variable (hsl : (k.proc i).state = .sleeping) (hR : ∀ c, k.Suspended i c → R c)
include hsl hR

/-- Waking a sleeper and writing to its image. -/
theorem Wakes.of_wake
    (hi : k'.img i = k.img i) (hi' : (k'.proc i).state = .runnable)
    (hq : ∀ q, q ≠ i → (k'.proc q).place = (k.proc q).place)
    (hj : ∀ j, j ≠ k.img i → SameImg k k' j)
    (hrest : { k'.face with place := k.face.place, mail := k.mail, r0 := k.r0, mem := k.mem }
      = k.face) : Wakes R k k' where
  slot q := by
    by_cases h : q = i
    · subst h
      exact .woken hi hsl hR hi'
    · exact .same (hq q h)
  image j := by
    by_cases h : j = k.img i
    · exact .inr ⟨i, h.symm, hsl, by simp [hi']⟩
    · exact .inl (hj j h)
  ctl := congrArg Face.ctl hrest
  nimg := congrArg Face.nimg hrest
  ring pi := congrFun (congrArg Face.ring hrest) pi
  moves := congrArg Face.moves hrest
  nstream := congrArg Face.nstream hrest
  calls := congrArg Face.calls hrest
  ncalls := congrArg Face.ncalls hrest
  inCall := congrArg Face.inCall hrest
  ended := congrArg Face.ended hrest

theorem Wakes.wake :
    Wakes R k (k.wake i) := by
  refine .of_wake hsl hR ?_ ?_ ?_ ?_ rfl
  · simp [Kernel.wake, setProc, img]
  · simp [Kernel.wake, setProc]
  · intro q hq
    simp [Kernel.wake, setProc, hq]
  · intro j _
    exact ⟨rfl, rfl, rfl⟩

theorem Wakes.kcomplete {v : Word} : Wakes R k (k.kcomplete i v) := by
  refine .of_wake hsl hR ?_ ?_ ?_ ?_ rfl
  · simp [Kernel.kcomplete, Kernel.wake, setret, setProc, img]
  · simp [Kernel.kcomplete, Kernel.wake, setProc]
  · intro q hq
    simp [Kernel.kcomplete, Kernel.wake, setret, setProc, hq]
  · intro j hj
    simp [SameImg, Kernel.kcomplete, Kernel.wake, setret, setProc, hj]

end

/-- Waking one process: what has to be known of it if it is parked on a pipe. -/
theorem Wakes.eases (h : Wakes R k k') (hq : ∀ q, q ≠ i → (k'.proc q).place = (k.proc q).place)
    (hends : k'.face.ends = k.face.ends)
    (hreader : ∀ pi, k.SleepsOn i (.nread pi) → (k.pipes pi).writeopen = false)
    (hwriter : ∀ pi, k.SleepsOn i (.nwrite pi) →
      (k.pipes pi).readopen = false ∧ ShortCount k k' i) : Eases R k k' := by
  have honly : ∀ s, Woken k k' s → s = i := by
    intro s hw
    by_contra hne
    exact hw.2 ((place_eq_iff.mp (hq s hne)).1.trans hw.1)
  have hshut := Shut.of_ends hends
  refine { h with shut := hshut, reader := ?_, writer := ?_, count := ?_ }
  · intro s pi hs hw
    cases honly s hw
    exact (hshut pi).writeopen (hreader pi hs)
  · intro s pi hs hw
    cases honly s hw
    exact (hshut pi).readopen (hwriter pi hs).1
  · intro s pi hs hw _
    cases honly s hw
    exact (hwriter pi hs).2

/-- A channel of `kpipe.c`. -/
def Chan.IsPipe : Chan → Prop
  | .nread _ => True
  | .nwrite _ => True
  | _ => False

/-- Waking a process that is not parked on a pipe. -/
theorem Wakes.eases_off (h : Wakes R k k') (hs : k.SleepsOn i c) (hc : ¬ Chan.IsPipe c)
    (hq : ∀ q, q ≠ i → (k'.proc q).place = (k.proc q).place)
    (hends : k'.face.ends = k.face.ends) : Eases R k k' := by
  refine h.eases hq hends ?_ ?_ <;> intro pi hpi <;> rw [← hs.2, hpi.2] at hc <;>
    exact absurd trivial hc

theorem kcomplete_others (v : Word) (hq : q ≠ i) :
    ((k.kcomplete i v).proc q).place = (k.proc q).place := by
  simp [kcomplete, wake, setret, setProc, hq]

theorem kcomplete_shortCount (k : Kernel) (i : Slot) :
    ShortCount k (k.kcomplete i (k.mailof i).done) i := by
  simp [ShortCount, kcomplete, wake, setret, setProc]

/-! ## Pipes and files -/

theorem kfindSleeper_some {s : Slot} (h : k.kfindSleeper c = some s) : k.SleepsOn s c := by
  simpa using List.find?_some h

theorem kfindSleeper_none (h : k.kfindSleeper c = none) (s : Slot) : ¬ k.SleepsOn s c := by
  have := List.find?_eq_none.mp h s (List.mem_finRange s)
  simpa using this

theorem SleepsOn.not_suspended (h : k.SleepsOn i c) (hc : ∀ d, c ≠ .proc d)
    (d : Slot) : ¬ k.Suspended i d := by
  intro hs
  exact hc d (h.2.symm.trans hs.1.2)

theorem completeAll_eases (hc : ∀ d, c ≠ .proc d)
    (hv : ∀ k s pi, c = .nwrite pi → v k s = (mailof k s).done) (fuel : Nat) (k : Kernel)
    (hr : ∀ pi, c = .nread pi → (k.pipes pi).writeopen = false)
    (hw : ∀ pi, c = .nwrite pi → (k.pipes pi).readopen = false) :
    Eases R k (completeAll c v fuel k) := by
  induction fuel generalizing k with
  | zero => exact .refl k
  | succ fuel ih =>
    rw [completeAll]
    cases hf : k.kfindSleeper c with
    | none => exact .refl k
    | some s =>
      have hs := kfindSleeper_some hf
      have hwake : Wakes R k (k.kcomplete s (v k s)) :=
        .kcomplete hs.1 fun d hd => absurd hd (hs.not_suspended hc d)
      refine (hwake.eases (fun q => kcomplete_others _) rfl ?_ ?_).trans (ih _ hr hw)
      · exact fun pi hpi => hr pi (hs.2.symm.trans hpi.2)
      · intro pi hpi
        have hcpi := hs.2.symm.trans hpi.2
        rw [hv k s pi hcpi]
        exact ⟨hw pi hcpi, kcomplete_shortCount k s⟩

/-- Each round wakes a sleeper and makes no new one, so as many rounds as there
    are slots leave nobody asleep. -/
theorem completeAll_not_sleepsOn (fuel : Nat) (k : Kernel)
    (h : (univ.filter fun s => k.SleepsOn s c).card ≤ fuel) (s : Slot) :
    ¬ (completeAll c v fuel k).SleepsOn s c := by
  induction fuel generalizing k with
  | zero =>
    intro hs
    have hempty := card_eq_zero.mp (Nat.le_zero.mp h)
    exact notMem_empty s (hempty ▸ mem_filter.mpr ⟨mem_univ s, hs⟩)
  | succ fuel ih =>
    rw [completeAll]
    cases hf : k.kfindSleeper c with
    | none => exact kfindSleeper_none hf s
    | some t =>
      have ht := kfindSleeper_some hf
      refine ih _ (Nat.le_of_lt_succ (Nat.lt_of_lt_of_le (card_lt_card ?_) h))
      refine ssubset_iff_of_subset ?_ |>.mpr ⟨t, by simpa using ht, ?_⟩
      · intro q hq
        simp only [mem_filter, mem_univ, true_and] at hq ⊢
        by_cases hqt : q = t
        · exact hqt ▸ ht
        · obtain ⟨hst, hch, _⟩ := place_eq_iff.mp (kcomplete_others (k := k) (v k t) hqt)
          exact ⟨hst ▸ hq.1, hch ▸ hq.2⟩
      · rw [mem_filter]
        simp [SleepsOn, kcomplete, wake, setProc]

theorem completeAll_nproc_not_sleepsOn (k : Kernel)
    (s : Slot) : ¬ (completeAll c v nproc k).SleepsOn s c :=
  completeAll_not_sleepsOn nproc k ((card_le_univ _).trans (by simp)) s

theorem setPipe_face {p : Pipe} (h : p.ring = (k.pipes pi).ring) :
    { (k.setPipe pi p).face with ends := k.face.ends } = k.face := by
  have : (fun pj => ((k.setPipe pi p).pipes pj).ring) = fun pj => (k.pipes pj).ring := by
    funext pj
    by_cases hp : pj = pi
    · subst hp
      simpa [setPipe] using h
    · simp [setPipe, hp]
  simpa [face, ctl, setPipe] using this

theorem setProc_face (h : p.place = (k.proc i).place) : (k.setProc i p).face = k.face := by
  have : (fun j => ((k.setProc i p).proc j).place) = fun j => (k.proc j).place := by
    funext j
    by_cases hj : j = i
    · subst hj
      simpa [setProc] using h
    · simp [setProc, hj]
  simpa [face, ctl, setProc] using this

/-- New flags for one pipe, and then something that leaves nobody behind. -/
theorem Eases.of_flags {p : Pipe} (hring : p.ring = (k.pipes pi).ring)
    (h : Eases R (k.setPipe pi p) k') (hshut : Shut k k' pi) : Eases R k k' := by
  have hw : Wakes R k (k.setPipe pi p) := .of_face (setPipe_face hring)
  refine { hw.trans h.toWakes with
    shut := fun pj => ?_, reader := h.reader, writer := h.writer, count := h.count }
  by_cases hp : pj = pi
  · exact hp ▸ hshut
  · have hsame : (k.setPipe pi p).pipes pj = k.pipes pj := by simp [setPipe, hp]
    obtain ⟨hr, hw, hu⟩ := h.shut pj
    rw [hsame] at hr hw hu
    exact ⟨hr, hw, hu⟩

theorem closeEnd_eases (k : Kernel) (pi : PipeId) (w : Bool) : Eases R k (k.closeEnd pi w) := by
  have hself : ∀ p, (k.setPipe pi p).pipes pi = p := fun p => by simp [setPipe]
  cases w with
  | false =>
    generalize hp : { k.pipes pi with readopen := false } = p
    have h : Eases R (k.setPipe pi p) (k.closeEnd pi false) := by
      subst hp
      refine completeAll_eases (by simp) (fun _ _ _ _ => rfl) _ _ (by simp) ?_
      rintro pj hpj
      cases Chan.nwrite.inj hpj
      rw [hself]
    refine h.of_flags (by rw [← hp]; rfl) ⟨.inr ⟨?_, ?_⟩, ?_, ?_⟩
    · refine (h.shut pi).readopen ?_
      rw [hself, ← hp]
    · exact completeAll_nproc_not_sleepsOn _
    · have hwr := (h.shut pi).write
      rwa [hself, ← hp] at hwr
    · have hu := (h.shut pi).inuse
      rwa [hself, ← hp] at hu
  | true =>
    generalize hp : { k.pipes pi with writeopen := false } = p
    have h : Eases R (k.setPipe pi p) (k.closeEnd pi true) := by
      subst hp
      refine completeAll_eases (by simp) (by simp) _ _ ?_ (by simp)
      rintro pj hpj
      cases Chan.nread.inj hpj
      rw [hself]
    refine h.of_flags (by rw [← hp]; rfl) ⟨?_, .inr ⟨?_, ?_⟩, ?_⟩
    · have hr := (h.shut pi).read
      rwa [hself, ← hp] at hr
    · refine (h.shut pi).writeopen ?_
      rw [hself, ← hp]
    · exact completeAll_nproc_not_sleepsOn _
    · have hu := (h.shut pi).inuse
      rwa [hself, ← hp] at hu

theorem pipeclose_eases (k : Kernel) (pi : PipeId) (w : Bool) : Eases R k (k.pipeclose pi w) := by
  refine (closeEnd_eases k pi w).trans ?_
  rw [pipeclose]
  generalize k.closeEnd pi w = k'
  split
  next h =>
    have hself : ∀ p, (k'.setPipe pi p).pipes pi = p := fun p => by simp [setPipe]
    simp only [Bool.and_eq_true, Bool.not_eq_true'] at h
    generalize hp : { k'.pipes pi with inuse := false } = p
    have hr : p.ring = (k'.pipes pi).ring := by rw [← hp]; rfl
    refine Eases.of_flags hr (.refl _) ⟨.inl ?_, .inl ?_, .inr ?_⟩ <;> rw [hself, ← hp]
    exact h
  next => exact .refl k'

theorem FileRun.eases (h : FileRun True True False k k') : Eases R k k' := by
  induction h with
  | refl => exact .refl k
  | tail _ hs ih =>
    refine ih.trans ?_
    cases hs with
    | file | ofile | panic => exact .of_face rfl
    | close => exact pipeclose_eases ..
    | openPipe h | poke h => exact h.elim

/-! ## The arena -/

/-- What the allocator leaves alone. -/
def bare (k : Kernel) : Kernel :=
  { k with
    proc := fun i => (k.proc i).bare
    kheapInit := false
    kfreelist := 0
    khdr := fun _ => {}
    execmem := fun _ _ => 0
    heapmem := fun _ => 0
    stuck := false }

theorem face_eq_of_bare (h : k'.bare = k.bare) : k'.face = k.face := by
  have hface : k'.bare.face = k.bare.face := congrArg face h
  exact hface

theorem setProc_bare (h : p.bare = (k.proc i).bare) : (k.setProc i p).bare = k.bare := by
  have hproc : (fun j => ((k.setProc i p).proc j).bare) = fun j => (k.proc j).bare := by
    funext j
    by_cases hj : j = i
    · subst hj
      simpa [setProc] using h
    · simp [setProc, hj]
  simp only [bare, hproc]
  rfl

section

variable (k : Kernel)

@[simp] theorem setHdr_bare (h : Word) (x : Khdr) : (k.setHdr h x).bare = k.bare := rfl

@[simp] theorem setLink_bare (pp : Option Word) (v : Word) :
    (k.setLink pp v).bare = k.bare := by
  cases pp <;> rfl

theorem setExecmem_bare (x : Part) (a : Word) :
    (k.setExecmem i x a).bare = k.bare := rfl

theorem setHeapmem_bare (a : Word) : (k.setHeapmem i a).bare = k.bare := rfl

theorem kfree_bare (a : Word) : (k.kfree a).bare = k.bare := by
  simp only [kfree]
  split
  · rfl
  split
  · rfl
  next prev cur _ =>
    cases prev <;> simp only [] <;> split_ifs <;> simp

theorem kheapStart_bare : k.kheapStart.bare = k.bare := by
  rw [kheapStart]
  split <;> rfl

theorem kalloc_bare (n : Word) : (k.kalloc n).1.bare = k.bare := by
  rw [← kheapStart_bare k]
  simp only [kalloc]
  split
  · rfl
  · rfl
  · split <;> simp

theorem kallocTop_bare (n : Word) : (k.kallocTop n).1.bare = k.bare := by
  rw [← kheapStart_bare k]
  simp only [kallocTop]
  split
  · rfl
  · rfl
  · split
    · rfl
    · simp

theorem kfreeExec_bare (i : Slot) : (k.kfreeExec i).bare = k.bare := by
  simp only [kfreeExec, List.foldl]
  rw [setProc_bare (by rfl)]
  simp [setExecmem_bare, setHeapmem_bare, kfree_bare]

end

/-! ## Termination -/

/-- One round of `vfork_release`. -/
theorem vforkRelease_round (k : Kernel) (i q : Slot) :
    Eases (· = i) k (if k.SleepsOn q (.proc i) then k.kcomplete q (k.proc i).pid else k) := by
  split
  next h =>
    have hwake : Wakes (· = i) k (k.kcomplete q (k.proc i).pid) :=
      .kcomplete h.1 fun c hc => Chan.proc.inj (hc.1.2.symm.trans h.2)
    exact hwake.eases_off h (by simp [Chan.IsPipe]) (fun _ => kcomplete_others _) rfl
  next => exact .refl k

theorem vforkRelease_eases (k : Kernel) (i : Slot) : Eases (· = i) k (k.vforkRelease i) := by
  refine Eases.foldl (fun k q => ?_) _ k
  exact vforkRelease_round k i q

/-- Afterwards nobody sleeps on the slot any more. -/
theorem vforkRelease_not_sleepsOn (k : Kernel) (i q : Slot) :
    ¬ (k.vforkRelease i).SleepsOn q (.proc i) := by
  refine not_sleepsOn_foldl (fun k q => vforkRelease_round k i q) (fun k q => ?_) _ k q
    (List.mem_finRange q)
  split
  next => simp [SleepsOn, kcomplete, wake, setProc]
  next h => exact h

/-- A zombie slot becomes free. -/
theorem Eases.freed (hz : (k.proc q).state = .zombie) (hp : p.state = .unused)
    (hi : p.img = (k.proc q).img) : Eases R k (k.setProc q p) := by
  have hslot : ∀ r, SlotEases R k (k.setProc q p) r := by
    intro r
    by_cases hr : r = q
    · subst hr
      exact .freed (by simp [setProc, img, hi]) hz (by simp [setProc, hp])
    · exact .same (by simp [setProc, hr])
  have hw : Wakes R k (k.setProc q p) :=
    { (Eases.refl k : Eases R k k).toWakes with
      slot := hslot, image := fun j => .inl ⟨rfl, rfl, rfl⟩ }
  have hothers : ∀ r, r ≠ q → ((k.setProc q p).proc r).place = (k.proc r).place :=
    fun r hr => by simp [setProc, hr]
  refine hw.eases hothers rfl ?_ ?_ <;> intro pi hs <;> simp [hs.1] at hz

theorem reparent_eases (k : Kernel) (i : Slot) : Eases R k (k.reparent i) := by
  refine Eases.foldl (fun k q => ?_) _ k
  split
  next h =>
    by_cases hz : (k.proc q).state = .zombie
    · exact .freed hz (by simp [hz]) rfl
    · exact .of_face (setProc_face (by simp [Proc.place, hz]))
  next => exact .refl k

theorem pokeWord_eq (k : Kernel) (i : Slot) (a v : Word) :
    ∃ m, k.pokeWord i a v = k.setMem i m := by
  have hset : ∀ (k : Kernel) m m', (k.setMem i m).setMem i m' = k.setMem i m' := by
    simp [setMem, img]
  have hpoke : ∀ (l : List Nat) (k : Kernel) (m : Word → Byte), ∃ m',
      l.foldl (fun k j => k.poke i (a + BitVec.ofNat 32 j) (v.extractLsb' (8 * j) 8))
        (k.setMem i m) = k.setMem i m' := by
    intro l
    induction l with
    | nil => exact fun k m => ⟨m, rfl⟩
    | cons j l ih =>
      intro k m
      rw [List.foldl_cons, poke, hset]
      exact ih k _
  have hself : k.setMem i (k.mem (k.img i)) = k := by simp [setMem]
  obtain ⟨m, hm⟩ := hpoke (List.range 4) k (k.mem (k.img i))
  rw [hself] at hm
  exact ⟨m, hm⟩

theorem reapInto_eases (h : k.SleepsOn q (.proc q)) : Eases R k (k.reapInto i q) := by
  have hR : ∀ c, k.Suspended q c → R c := by
    intro c hc
    exact absurd (Chan.proc.inj (hc.1.2.symm.trans h.2)) hc.2
  obtain ⟨m, hm⟩ : ∃ m, (if (k.mailof q).a0 ≠ 0 then
      k.pokeWord q (k.mailof q).a0 (k.proc i).xstate else k) = k.setMem q m := by
    split
    · exact pokeWord_eq _ _ _ _
    · exact ⟨k.mem (k.img q), by simp [setMem]⟩
  simp only [reapInto, hm]
  have hothers : ∀ r, r ≠ q → (((k.setMem q m).kcomplete q (k.proc i).pid).proc r).place =
      (k.proc r).place := fun r hr => kcomplete_others (k := k.setMem q m) _ hr
  refine (Wakes.of_wake h.1 hR ?_ ?_ hothers ?_ rfl).eases_off h (by simp [Chan.IsPipe]) hothers rfl
  · simp [Kernel.kcomplete, Kernel.wake, setret, setProc, img, setMem]
  · simp [Kernel.kcomplete, Kernel.wake, setProc]
  · intro j hj
    simp only [img] at hj
    simp [SameImg, Kernel.kcomplete, Kernel.wake, setret, setProc, setMem, img, hj]

theorem unwind_eases (k : Kernel) (i : Slot) (status : Word) :
    Eases (· = i) k (k.unwind i status) ∧ ∀ q, ¬ (k.unwind i status).SleepsOn q (.proc i) := by
  simp only [unwind]
  generalize hk1 : k.dropRaw i = k1
  generalize hk2 : k1.setProc i { k1.proc i with xstate := status } = k2
  generalize hk3 : (if k2.fsready then k2.kfsExit i else k2) = k3
  have h1 : k1.face = k.face := by
    rw [← hk1, dropRaw]
    split <;> rfl
  have h2 : k2.face = k1.face := by
    rw [← hk2]
    exact setProc_face rfl
  have h3 : Eases (· = i) k2 k3 := by
    rw [← hk3]
    split
    · exact (kfsExit_run trivial k2 i).eases
    · exact .refl k2
  have h4 : Eases (· = i) k ((k3.kfreeExec i).vforkRelease i) :=
    ((h3.from_face (h2.trans h1)).trans (.of_face (face_eq_of_bare (kfreeExec_bare k3 i)))).trans
      (vforkRelease_eases _ i)
  have hrel := vforkRelease_not_sleepsOn (k3.kfreeExec i) i
  split
  · have hrep := reparent_eases (R := (· = i)) ((k3.kfreeExec i).vforkRelease i) i
    exact ⟨h4.trans hrep, fun q hq => hrel q ((hrep.slot q).sleepsOn hq)⟩
  · exact ⟨h4, hrel⟩

/-- Termination wakes whom it must and then takes the slot out of use. -/
theorem terminate_eq (k : Kernel) (i : Slot) (status : Word) :
    ∃ (m : Kernel) (b : Bool), k.terminate i status = m.bury i b ∧ Eases (· = i) k m ∧
      ∀ q, ¬ m.SleepsOn q (.proc i) := by
  obtain ⟨hun, hnone⟩ := unwind_eases k i status
  unfold terminate
  generalize k.unwind i status = m at hun hnone ⊢
  dsimp only
  split
  next q hq =>
    have hw : m.SleepsOn q (.proc q) := by
      have := List.find?_some hq
      simp only [decide_eq_true_eq] at this
      exact this.2
    have hreap : Eases (· = i) m (m.reapInto i q) := reapInto_eases hw
    refine ⟨m.reapInto i q, true, rfl, hun.trans hreap, ?_⟩
    intro r hr
    exact hnone r ((hreap.slot r).sleepsOn hr)
  next => exact ⟨m, false, rfl, hun, hnone⟩

/-! ## The heap -/

theorem allocChunk_bare (want : Word) (fuel : Nat) (size : Word) (k : Kernel) :
    (allocChunk want fuel size k).1.bare = k.bare := by
  induction fuel generalizing size k with
  | zero => rfl
  | succ fuel ih =>
    have hk := kallocTop_bare k size
    rw [allocChunk]
    dsimp only
    split
    · exact (ih _ _).trans hk
    · exact hk

theorem shareHeap_bare (p par : Slot) : (k.shareHeap p par).bare = k.bare := by
  rw [shareHeap]
  split
  · exact setProc_bare rfl
  · rfl

theorem hoistChunk_bare (q par : Slot) : (k.hoistChunk q par).bare = k.bare := by
  rw [hoistChunk]
  split <;> rfl

theorem hoistHeap_bare (p : Slot) (fuel : Nat) :
    (hoistHeap p fuel q k).bare = k.bare := by
  induction fuel generalizing q k with
  | zero => rfl
  | succ fuel ih =>
    rw [hoistHeap]
    split
    · rfl
    · rw [ih, hoistChunk_bare, shareHeap_bare]

theorem syncBrk_bare (p : Slot) (fuel : Nat) (q : Slot) (k : Kernel) :
    (syncBrk p fuel q k).bare = k.bare := by
  induction fuel generalizing q k with
  | zero => rfl
  | succ fuel ih =>
    rw [syncBrk]
    split
    · rfl
    · rw [ih]
      exact setProc_bare rfl

section

variable (k : Kernel)

theorem openHeap_bare (n : Word) : (k.openHeap n).1.bare = k.bare := by
  simp only [openHeap]
  split
  · rfl
  split
  · rfl
  · have hk := allocChunk_bare ((n + 0xFF) &&& ~~~0xFF) 32
      (if (n + 0xFF) &&& ~~~0xFF < heapchunk then heapchunk else (n + 0xFF) &&& ~~~0xFF) k
    generalize allocChunk _ 32 _ k = r at hk ⊢
    split
    · exact hk
    · rw [setProc_bare (by rfl)]
      exact hk

theorem setMem_self (i : Slot) : k.setMem i (k.mem (k.img i)) = k := by
  simp [setMem]

/-- `sbrk` touches no process and no byte but the caller's own memory. -/
theorem ksbrk_bare (n : Word) :
    ∃ m, (k.ksbrk n).1.bare = (k.setMem k.curr m).bare := by
  have hself := setMem_self k k.curr
  have hopen := openHeap_bare k n
  simp only [ksbrk]
  generalize k.openHeap n = r at hopen ⊢
  obtain ⟨k', b⟩ := r
  have hk' : k'.bare = k.bare := hopen
  have hset : ∀ m, (k'.setMem k.curr m).bare = (k.setMem k.curr m).bare := by
    intro m
    exact congrArg (fun k'' : Kernel => k''.setMem k.curr m) hk'
  cases b with
  | false => exact ⟨_, hk'.trans (congrArg bare hself.symm)⟩
  | true =>
    dsimp only
    split
    · split
      · exact ⟨_, hk'.trans (congrArg bare hself.symm)⟩
      · refine ⟨fun a => if (k'.proc k.curr).brk ≤ a ∧ a < (k'.proc k.curr).brk + n then 0
          else k'.peek k.curr a, ?_⟩
        rw [hoistHeap_bare, setProc_bare (by rfl)]
        exact hset _
    · split
      · exact ⟨_, hk'.trans (congrArg bare hself.symm)⟩
      · refine ⟨k.mem (k.img k.curr), ?_⟩
        rw [hoistHeap_bare, setProc_bare (by rfl), hself]
        exact hk'

theorem ksbrk_face (n : Word) :
    ∃ m, (k.ksbrk n).1.face = (k.setMem k.curr m).face := by
  obtain ⟨m, hm⟩ := ksbrk_bare k n
  exact ⟨m, face_eq_of_bare hm⟩

theorem place_bare (p : Program) : (k.place p).1.bare = k.bare := by
  have h2 : ∀ (k : Kernel) (x y : Word), ((k.kfree x).kfree y).bare = k.bare := by
    intro k x y
    rw [kfree_bare, kfree_bare]
  have hpair : ∀ (t d : Word), ((k.kalloc t).1.kalloc d).1.bare = k.bare := by
    intro t d
    rw [kalloc_bare, kalloc_bare]
  cases p with
  | missing => rfl
  | file textlen datalen readOk =>
    simp only [place]
    split
    · rw [h2, hpair]
    · exact hpair _ _
  | row textlen datalen sramhome rtextlen =>
    simp only [place]
    split
    · split
      · rw [kfree_bare, kalloc_bare]
      · exact kalloc_bare _ _
    · split
      · rw [h2, hpair]
      · exact hpair _ _

theorem place_face (p : Program) : (k.place p).1.face = k.face :=
  face_eq_of_bare (place_bare k p)

theorem replaceImage_bare (i : Slot) (tb db argv : Word) :
    (k.replaceImage i tb db argv).bare = k.bare := by
  have hargs : ∀ k : Kernel, (k.placeArgs i argv).bare = k.bare := by
    intro k
    rw [placeArgs]
    split
    · rfl
    · dsimp only
      split
      · exact kalloc_bare k 256
      · exact kalloc_bare k 256
  rw [replaceImage, hargs, setExecmem_bare, setExecmem_bare, kfreeExec_bare, vforkSyncBrk,
    syncBrk_bare]

end

/-- A successful `exec`: the blocks are exchanged, the process enters the fresh
    image, its parent is released, and it runs. -/
theorem sysExec_eq_of_some {m : Mail} {a : Answer} (h : (k.place a.program).2.isSome) :
    ∃ k1 : Kernel, k1.bare = k.bare ∧ (k.sysExec m a).1 =
      (((k1.enterImage k.curr a).vforkRelease k.curr).setProc k.curr
        { ((k1.enterImage k.curr a).vforkRelease k.curr).proc k.curr with
          state := .running }).markEnd k.curr := by
  have hbare := place_bare k a.program
  unfold sysExec
  generalize k.place a.program = r at h hbare ⊢
  obtain ⟨k', o⟩ := r
  cases o with
  | none => simp at h
  | some x =>
    obtain ⟨tb, db⟩ := x
    exact ⟨k'.replaceImage k.curr tb db m.a1, (replaceImage_bare k' _ _ _ _).trans hbare, rfl⟩

end Kernel

end DmaCpu.Xv6
