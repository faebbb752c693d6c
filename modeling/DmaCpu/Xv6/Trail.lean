-- SUMMARY: The decomposition of every event into background and foreground actions.
import DmaCpu.Xv6.Atoms

/-!
# Trails

The handler of a system call acts for the current process, which is awake and
has no unanswered write call (`AtCall`). The condition `C` stands for what a
development assumes of the system calls that are made: it is known of the state
and the answer at which a handler starts.
-/
namespace DmaCpu.Xv6

open Function

variable {k k' : Kernel} {R : Slot → Prop} {a : Answer} {m : Mail} {e : Event}

namespace Kernel

/-- The current process is awake and waits for no result of a pipe write. -/
structure AtCall (k : Kernel) : Prop where
  ready : k.Ready k.curr
  inCall : k.inCall k.curr = none

/-- Descriptor `fd` of the current process is an end of pipe `pi`. -/
def PipeFd (k : Kernel) (fd : Word) (pi : PipeId) (w : Bool) : Prop :=
  k.fsready ∧ ∃ f, k.fdget fd = some f ∧ (k.ftable f).type = .pipe ∧ (k.ftable f).pipe = pi ∧
    (if w then (k.ftable f).writable else (k.ftable f).readable)

instance (k : Kernel) (fd : Word) (pi : PipeId) (w : Bool) : Decidable (k.PipeFd fd pi w) := by
  unfold PipeFd
  infer_instance

/-- The buffer of the current call is not in the returned part of the heap. -/
def GoodBuf (k : Kernel) : Prop :=
  badbuf (k.proc k.curr) (k.mailof k.curr).a1 (k.mailof k.curr).a2 = false

/-- The current call is a `read` of pipe `pi`. -/
def Reads (k : Kernel) (pi : PipeId) : Prop :=
  Sys.ofNum (k.mailof k.curr).num = .read ∧ k.GoodBuf ∧ k.PipeFd (k.mailof k.curr).a0 pi false

/-- The current call is a `write` to pipe `pi`. -/
def Writes (k : Kernel) (pi : PipeId) : Prop :=
  Sys.ofNum (k.mailof k.curr).num = .write ∧ k.GoodBuf ∧ k.PipeFd (k.mailof k.curr).a0 pi true

instance (k : Kernel) (pi : PipeId) : Decidable (k.Reads pi) := by
  unfold Reads GoodBuf
  infer_instance

instance (k : Kernel) (pi : PipeId) : Decidable (k.Writes pi) := by
  unfold Writes GoodBuf
  infer_instance

/-- The end of a `read` or `write`. -/
def ioTail (r : Kernel × Word) : Kernel := r.1.sysTail (ioOutcome r.2)

/-- `fork` has copied the descriptors of its caller to slot `c`. -/
def copied (k : Kernel) (c : Slot) : Kernel := if k.fsready then k.kfsForkcopy k.curr c else k

/-- What a handler does for its caller. -/
inductive Fg (C : Kernel → Answer → Prop) (k : Kernel) : Kernel → Prop where
  | own (m : Word → Byte) : Fg C k (k.setMem k.curr m)
  | ret (v : Word) : Fg C k (k.sysTail (.ret v))
  | sleep {c : Chan} (v : Word)
      (hc : c = .ticks ∨ c = .selwaitTo ∨ c = .selwaitInf ∨ c = .proc k.curr) :
      Fg C k ((k.sleep c).sysTail (.block v))
  | reap {c : Slot} (h : (k.proc c).state = .zombie)
      (hp : (k.proc c).ppid = (k.proc k.curr).pid) :
      Fg C k (k.setProc c { k.proc c with state := .unused })
  | resume (v : Word) : Fg C k { k.setProc k.curr { k.proc k.curr with
      sigpend := .idle, state := .running } with
      r0 := update k.r0 (k.img k.curr) v }
  | fork {c : Slot} (h : (k.proc c).state = .unused) :
      Fg C k (((k.copied c).forkInto c).sysTail (.block 0))
  | exec {a : Answer} (hC : C k a) (hcall : Sys.ofNum (k.mailof k.curr).num = .exec)
      (h : (k.place a.program).2.isSome) : Fg C k (k.sysExec (k.mailof k.curr) a).1
  | place {a : Answer} (hC : C k a) (hcall : Sys.ofNum (k.mailof k.curr).num = .exec)
      (h : (k.place a.program).2 = none) : Fg C k (k.place a.program).1
  | sbrk (n : Word) : Fg C k (k.ksbrk n).1
  | close (fd : Word) : Fg C k (k.kfsClose fd).1
  | dup (fd : Word) : Fg C k (k.kfsDup fd).1
  | open {a : Answer} (hC : C k a) (hcall : Sys.ofNum (k.mailof k.curr).num = .open) :
      Fg C k (k.kfsOpen a).1
  | pipe {a : Answer} (fdarray : Word) (hC : C k a)
      (hcall : Sys.ofNum (k.mailof k.curr).num = .pipe) : Fg C k (k.kfsPipe fdarray).1
  | read {a : Answer} {pi : PipeId} (hC : C k a) (h : k.Reads pi) :
      Fg C k (ioTail (k.piperead pi (k.mailof k.curr).a1 (k.mailof k.curr).a2))
  | write {a : Answer} {pi : PipeId} (hC : C k a) (h : k.Writes pi) :
      Fg C k (ioTail (k.pipewrite pi (k.mailof k.curr).a1 (k.mailof k.curr).a2))

/-- One action of the kernel or of the current process. -/
inductive Atom (Q : Prop) (P : Slot → Prop) (C : Kernel → Answer → Prop) (k : Kernel) :
    Kernel → Prop where
  | bg {k' : Kernel} (h : Bg Q P k k') : Atom Q P C k k'
  | fg {k' : Kernel} (hk : k.AtCall) (h : Fg C k k') : Atom Q P C k k'
  | user (mem : Word → Byte) (r0 : Word) (hk : k.Ready k.curr) : Atom Q P C k (k.runUser mem r0)
  | mail (m : Mail) (hk : k.Ready k.curr) : Atom Q P C k (k.fillMail m)
  | start (h : k.fsready = false) (hd : k.dmaDisk = true) : Atom Q P C k k.kfsStart
  /-- The turn passes: only control changes. -/
  | turn {k' : Kernel} (h : { k'.face with ctl := k.ctl } = k.face) (hid : k'.ident = k.ident)
      (hfiles : k'.files = k.files) (henv : { k'.env with ctl := k.ctl } = k.env) : Atom Q P C k k'
  | yield {k' : Kernel} (hk : (k.proc k.curr).state = .running)
      (h : k' = k.setProc k.curr { k.proc k.curr with state := .runnable }) : Atom Q P C k k'
  /-- The process exits, or it was killed and enters the kernel. -/
  | die (status : Word) (hk : k.Ready k.curr) : Atom Q P C k (k.terminate k.curr status).swtch

abbrev Trail (Q : Prop) (P : Slot → Prop) (C : Kernel → Answer → Prop) :=
  Relation.ReflTransGen (Atom Q P C)

/-! ## Descriptors -/

theorem curr_of_face (h : k'.face = k.face) : k'.curr = k.curr :=
  congrArg (fun x : Face => x.ctl.curr) h

theorem FileRun.face (h : FileRun False True False k k') : k'.face = k.face :=
  h.inv Kernel.face (fun _ _ _ => rfl) (fun _ _ _ _ => rfl) fun _ => rfl

theorem copied_face (k : Kernel) (c : Slot) : (k.copied c).face = k.face := by
  rw [copied]
  split
  · exact (kfsForkcopy_run k k.curr c).face
  · rfl

theorem kfsStart_face (k : Kernel) : k.kfsStart.face = k.face :=
  kfsStart_inv face (fun _ _ _ => rfl) (fun _ _ _ _ => rfl) (fun _ => rfl) (fun _ => rfl) k

/-- A fresh pipe, as far as bytes are concerned. -/
def Face.openPipe (x : Face) (pi : PipeId) : Face :=
  { x with
    ring := update x.ring pi ⟨(x.ring pi).data, 0, 0, x.nstream⟩
    ends := update x.ends pi (true, true, true)
    nstream := x.nstream + 1 }

theorem openPipe_face (pi : PipeId) :
    (k.openPipe pi).face = Face.openPipe k.face pi := by
  have hring : (fun pj => ((k.openPipe pi).pipes pj).ring) =
      update (fun pj => (k.pipes pj).ring) pi ⟨(k.pipes pi).data, 0, 0, k.nstream⟩ := by
    funext pj
    by_cases hp : pj = pi
    · subst hp
      simp [openPipe, setPipe, Pipe.ring]
    · simp [openPipe, setPipe, hp]
  have hends : (fun pj => (((k.openPipe pi).pipes pj).readopen, ((k.openPipe pi).pipes pj).writeopen,
      ((k.openPipe pi).pipes pj).inuse)) = update (fun pj => ((k.pipes pj).readopen,
        (k.pipes pj).writeopen, (k.pipes pj).inuse)) pi (true, true, true) := by
    funext pj
    by_cases hp : pj = pi
    · subst hp
      simp [openPipe, setPipe]
    · simp [openPipe, setPipe, hp]
  simp only [face, hring, hends]
  rfl

/-- New memory for process `i`. -/
def Face.setMem (x : Face) (i : Slot) (m : Word → Byte) : Face :=
  { x with mem := update x.mem (x.place i).img m }

theorem setMem_face (i : Slot) (m : Word → Byte) :
    (k.setMem i m).face = Face.setMem k.face i m := rfl

theorem pipealloc_cases (k : Kernel) : (∃ k', k.pipealloc = (k', none) ∧ Eases R k k') ∨
    ∃ pi k' f0 f1, k.pipealloc = (k', some (f0, f1)) ∧ (k.pipes pi).inuse = false ∧
      k'.face = (k.openPipe pi).face := by
  simp only [pipealloc]
  split
  · exact .inl ⟨k, rfl, .refl k⟩
  next pi hpi =>
    split
    · exact .inl ⟨k, rfl, .refl k⟩
    next k1 f0 h1 =>
      split
      · exact .inl ⟨_, rfl, FileRun.eases <|
          (filealloc_run trivial h1).trans (fileclose_run trivial ..)⟩
      next k2 f1 h2 =>
        have hf : k2.face = k.face :=
          FileRun.face ((filealloc_run trivial h1).trans (filealloc_run trivial h2))
        have hinuse : (k.pipes pi).inuse = false := by simpa using List.find?_some hpi
        refine .inr ⟨pi, _, f0, f1, rfl, hinuse, ?_⟩
        have hset : ∀ (k : Kernel) x y, ((k.setFile f0 x).setFile f1 y).face = k.face :=
          fun _ _ _ => rfl
        rw [hset, openPipe_face, openPipe_face, hf]

/-- `kfs_pipe` wakes nobody, or makes a fresh pipe, writes the descriptors and
    wakes nobody. -/
theorem kfsPipe_cases (k : Kernel) (fdarray : Word) : Eases R k (k.kfsPipe fdarray).1 ∨
    ∃ pi m, (k.pipes pi).inuse = false ∧
      Eases R ((k.openPipe pi).setMem k.curr m) (k.kfsPipe fdarray).1 := by
  rcases pipealloc_cases (R := R) k with ⟨k1, h1, he⟩ | ⟨pi, k1, f0, f1, h1, hinuse, hf⟩
  · simp only [kfsPipe, h1]
    exact .inl he
  · refine .inr ⟨pi, ?_⟩
    have hself : ∀ k : Kernel, k.setMem k.curr (k.mem (k.img k.curr)) = k := by
      simp [setMem]
    have hown : ∀ {k' : Kernel}, Eases R k1 k' →
        ∃ m, (k.pipes pi).inuse = false ∧ Eases R ((k.openPipe pi).setMem k.curr m) k' := by
      intro k' he
      refine ⟨(k.openPipe pi).mem ((k.openPipe pi).img k.curr), hinuse, ?_⟩
      have := hself (k.openPipe pi)
      rw [show (k.openPipe pi).curr = k.curr from rfl] at this
      rw [this]
      exact he.from_face hf
    simp only [kfsPipe, h1]
    split
    · exact hown <| FileRun.eases <| (fileclose_run trivial k1 f0).trans (fileclose_run trivial ..)
    next k2 fd0 h2 =>
      split
      · exact hown <| FileRun.eases <| (((fdalloc_run h2).tail (.ofile ..)).trans
          (fileclose_run trivial ..)).trans (fileclose_run trivial ..)
      next k3 fd1 h3 =>
        have hf3 : k3.face = (k.openPipe pi).face :=
          (FileRun.face ((fdalloc_run h2).trans (fdalloc_run h3))).trans hf
        have hcurr : k3.curr = k.curr := congrArg (fun x : Face => x.ctl.curr) hf3
        obtain ⟨m, hm⟩ := pokeWord_eq k3 k3.curr fdarray (BitVec.ofNat 32 fd0)
        obtain ⟨m', hm'⟩ := pokeWord_eq (k3.setMem k3.curr m) k3.curr (fdarray + 4)
          (BitVec.ofNat 32 fd1)
        refine ⟨m', hinuse, .of_face ?_⟩
        rw [hm, hm', setMem_face, setMem_face, setMem_face, hf3, hcurr]
        simp [Face.setMem]

theorem copied_unused {c : Slot} (h : (k.proc c).state = .unused) :
    ((k.copied c).proc c).state = .unused :=
  (congrArg Place.state (congrFun (congrArg Face.place (copied_face k c)) c)).trans h

/-! ## The caller stays at its call -/

theorem Eases.curr (h : Eases R k k') : k'.curr = k.curr :=
  congrArg Control.curr h.ctl

theorem Eases.ready_curr (h : Eases R k k') (hc : k.Ready k.curr) : k'.Ready k'.curr := by
  rw [h.curr]
  exact (h.slot _).ready hc

theorem AtCall.eases (hk : k.AtCall) (h : Eases R k k') : k'.AtCall := by
  refine ⟨h.ready_curr hk.ready, ?_⟩
  · rw [h.curr, h.inCall]
    exact hk.inCall

theorem AtCall.of_face (hk : k.AtCall) (h : k'.face = k.face) : k'.AtCall :=
  hk.eases (R := fun _ => False) (.of_face h)

theorem AtCall.bgTrail {Q : Prop} {P : Slot → Prop} (hk : k.AtCall) (h : BgTrail Q P k k') : k'.AtCall := by
  constructor
  · rw [h.curr]
    exact h.ready hk.ready
  · rw [h.curr, h.inCall]
    exact hk.inCall

theorem AtCall.setMem {i : Slot} {m : Word → Byte} (hk : k.AtCall) : (k.setMem i m).AtCall :=
  ⟨hk.ready, hk.inCall⟩

variable {Q : Prop} {P : Slot → Prop} {C : Kernel → Answer → Prop}

theorem BgTrail.trail (h : BgTrail Q P k k') : Trail Q P C k k' :=
  Relation.ReflTransGen.mono (fun _ _ => .bg) _ _ h

theorem Fg.trail (h : Fg C k k') (hk : k.AtCall) : Trail Q P C k k' :=
  .single (.fg hk h)

theorem ret_trail (hk : k.AtCall) (v : Word) : Trail Q P C k (k.sysTail (.ret v)) :=
  (Fg.ret v).trail hk

/-- A call that answers after a foreground action that only wakes processes. -/
theorem Fg.ret_trail (h : Fg C k k') (he : Eases R k k') (hk : k.AtCall)
    (v : Word) : Trail Q P C k (k'.sysTail (.ret v)) :=
  (h.trail hk).trans (Kernel.ret_trail (hk.eases he) v)

/-! ## Handlers -/

theorem answer_trail (hk : k.AtCall) (a : Answer) :
    Trail Q P C k (k.answer a).1 ∧ (k.answer a).1.AtCall := by
  rw [answer]
  split
  · exact ⟨.refl, hk⟩
  · exact ⟨(Fg.own _).trail hk, hk.setMem⟩

theorem consCopy_trail {i : Slot} (n : Nat) (dst : Word) (got : Nat) (hi : i = k.curr)
    (hk : k.AtCall) :
    Trail Q P C k (consCopy i n dst got k).1 ∧ (consCopy i n dst got k).1.AtCall := by
  induction n generalizing dst got k with
  | zero => exact ⟨.refl, hk⟩
  | succ n ih =>
    subst hi
    rw [consCopy]
    split
    · exact ⟨.refl, hk⟩
    · generalize hk1 : k.setCons { k.cons with r := k.cons.r + 1 } = k1
      have hf : Frame k k1 := hk1 ▸ ⟨rfl, rfl, rfl, rfl⟩
      have hcurr : k1.curr = k.curr := by rw [← hk1]; rfl
      have hk1' : k1.AtCall := hk.of_face hf.face
      have hpoke : ∀ c, Trail Q P C k (k1.poke k.curr dst c) := by
        intro c
        rw [← hcurr]
        exact hf.trail.trail.trans ((Fg.own _).trail hk1')
      dsimp only
      split
      · exact ⟨hpoke _, hk1'.setMem⟩
      · obtain ⟨ht, hat⟩ := ih (dst + 1) (got + 1) (k := k1.poke k.curr dst
          (k.cons.buf (Ring.cell k.cons.r))) hcurr.symm hk1'.setMem
        exact ⟨(hpoke _).trans ht, hat⟩

theorem kconsread_trail {rx : List Byte} (hk : k.AtCall) (hcalm : Q → CalmBytes P rx k) (dst n : Word) :
    Trail Q P C k (k.kconsread dst n rx).1 ∧ (k.kconsread dst n rx).1.AtCall := by
  have hpoll := consPoll_trail hcalm
  have hk' := hk.bgTrail hpoll
  simp only [kconsread]
  split
  · exact ⟨hpoll.trail, hk'⟩
  · obtain ⟨ht, hat⟩ := consCopy_trail (C := C) n.toInt.toNat dst 0 rfl hk'
    exact ⟨hpoll.trail.trans ht, hat⟩

/-- Passing the turn. -/
theorem turn_trail (h : { k'.face with ctl := k.ctl } = k.face) (hid : k'.ident = k.ident)
    (hfiles : k'.files = k.files) (henv : { k'.env with ctl := k.ctl } = k.env) : Trail Q P C k k' :=
  .single (.turn h hid hfiles henv)

theorem swtch_trail (k : Kernel) : Trail Q P C k k.swtch := turn_trail rfl rfl rfl rfl

/-- The end of a `read` or `write` that did not put its caller to sleep. -/
theorem ioTail_trail (hk : k.AtCall) (r : Word) : Trail Q P C k (ioTail (k, r)) := by
  simp only [ioTail, ioOutcome]
  split
  · have hns : (k.proc k.curr).state ≠ .sleeping := by
      rcases hk.ready with h | h <;> simp [h]
    simp only [sysTail, if_neg hns]
    exact swtch_trail k
  · exact ret_trail hk r

theorem sysRead_trail (hk : k.AtCall) (hC : C k a) (hcalm : Q → CalmBytes P a.rx k)
    (hnum : Sys.ofNum (k.mailof k.curr).num = .read) :
    Trail Q P C k ((k.sysRead (k.mailof k.curr) a).1.sysTail (k.sysRead (k.mailof k.curr) a).2) := by
  change Trail Q P C k (ioTail (if badbuf (k.proc k.curr) (k.mailof k.curr).a1 (k.mailof k.curr).a2
    then (k, -1) else if k.fsready then
      k.kfsRead (k.mailof k.curr).a0 (k.mailof k.curr).a1 (k.mailof k.curr).a2 a
    else k.kconsread (k.mailof k.curr).a1 (k.mailof k.curr).a2 a.rx))
  have hcons : Trail Q P C k (ioTail (k.kconsread (k.mailof k.curr).a1 (k.mailof k.curr).a2 a.rx)) := by
    obtain ⟨ht, hat⟩ :=
      kconsread_trail (C := C) hk hcalm (k.mailof k.curr).a1 (k.mailof k.curr).a2
    exact ht.trans (ioTail_trail hat _)
  split
  · exact ioTail_trail hk _
  next hbuf =>
    split
    next hfs =>
      rw [kfsRead]
      split
      · exact ioTail_trail hk _
      next f hf =>
        simp only [fileread]
        split
        · exact ioTail_trail hk _
        next hr =>
          split
          next ht =>
            refine (Fg.read hC ⟨hnum, ?_, hfs, f, hf, ht, rfl, ?_⟩).trail hk
            · simpa [GoodBuf] using hbuf
            · simpa using hr
          · split
            · exact hcons
            · exact ioTail_trail hk _
          · obtain ⟨ht, hat⟩ := answer_trail (C := C) hk a
            exact ht.trans (ioTail_trail hat _)
          · have hf : Frame k k.panic := ⟨rfl, rfl, rfl, rfl⟩
            exact hf.trail.trail.trans (ioTail_trail (hk.of_face hf.face) _)
    next => exact hcons

theorem sysWrite_trail (hk : k.AtCall) (hC : C k a)
    (hnum : Sys.ofNum (k.mailof k.curr).num = .write) :
    Trail Q P C k ((k.sysWrite (k.mailof k.curr) a).1.sysTail (k.sysWrite (k.mailof k.curr) a).2) := by
  change Trail Q P C k (ioTail (if badbuf (k.proc k.curr) (k.mailof k.curr).a1 (k.mailof k.curr).a2
    then (k, -1) else if k.fsready then
      k.kfsWrite (k.mailof k.curr).a0 (k.mailof k.curr).a1 (k.mailof k.curr).a2 a
    else (k, (k.mailof k.curr).a2)))
  split
  · exact ioTail_trail hk _
  next hbuf =>
    split
    next hfs =>
      rw [kfsWrite]
      split
      · exact ioTail_trail hk _
      next f hf =>
        simp only [filewrite]
        split
        · exact ioTail_trail hk _
        next hw =>
          split
          next ht =>
            refine (Fg.write hC ⟨hnum, ?_, hfs, f, hf, ht, rfl, ?_⟩).trail hk
            · simpa [GoodBuf] using hbuf
            · simpa using hw
          · split <;> exact ioTail_trail hk _
          · exact ioTail_trail hk _
          · have hf : Frame k k.panic := ⟨rfl, rfl, rfl, rfl⟩
            exact hf.trail.trail.trans (ioTail_trail (hk.of_face hf.face) _)
    next => exact ioTail_trail hk _

theorem needFs_trail {f : Kernel → Kernel × Word} (hk : k.AtCall)
    (hf : Trail Q P C k (f k).1 ∧ (f k).1.AtCall) :
    Trail Q P C k ((k.needFs f).1.sysTail (k.needFs f).2) := by
  rw [needFs]
  split
  · exact hf.1.trans (ret_trail hf.2 _)
  · exact ret_trail hk _

theorem kfsPipe_atCall (hk : k.AtCall) (fdarray : Word) : (k.kfsPipe fdarray).1.AtCall := by
  rcases kfsPipe_cases (R := fun _ => False) k fdarray with he | ⟨pi, m, _, he⟩
  · exact hk.eases he
  · have hopen : ((k.openPipe pi).setMem k.curr m).AtCall := ⟨hk.ready, hk.inCall⟩
    exact hopen.eases he

theorem armTimed_frame (k : Kernel) (i : Slot) (span now : Word) : Frame k (k.armTimed i span now) := by
  have h : Frame k (k.setProc i { k.proc i with wakeUs := now + span * 100 }) :=
    .setProc rfl rfl
  exact h.trans ⟨rfl, rfl, rfl, rfl⟩

theorem sleep_trail {c : Chan} (hk : k.AtCall) (hf : Frame k k') (v : Word)
    (hc : c = .ticks ∨ c = .selwaitTo ∨ c = .selwaitInf ∨ c = .proc k.curr) :
    Trail Q P C k ((k'.sleep c).sysTail (.block v)) := by
  have hcurr := curr_of_face hf.face
  refine hf.trail.trail.trans ((Fg.sleep v ?_).trail (hk.of_face hf.face))
  rwa [hcurr]

theorem sysSelect_trail (hk : k.AtCall) :
    Trail Q P C k ((k.sysSelect m a).1.sysTail (k.sysSelect m a).2) := by
  simp only [sysSelect]
  split
  · exact ret_trail hk _
  split
  · exact sleep_trail hk (armTimed_frame k _ _ _) _ (by simp)
  · exact sleep_trail hk (.refl k) _ (by simp)

theorem sysWait_trail (hk : k.AtCall) : Trail Q P C k ((k.sysWait m).1.sysTail (k.sysWait m).2) := by
  simp only [sysWait]
  split
  next c hc =>
    have hchild := List.find?_some hc
    rw [decide_eq_true_iff] at hchild
    obtain ⟨k1, hk1, ht, hat, hproc, hcurr⟩ : ∃ k1, (if m.a0 ≠ 0 then
        k.pokeWord k.curr m.a0 (k.proc c).xstate else k) = k1 ∧ Trail Q P C k k1 ∧ k1.AtCall ∧
        k1.proc = k.proc ∧ k1.curr = k.curr := by
      split
      · obtain ⟨m', hm'⟩ := pokeWord_eq k k.curr m.a0 (k.proc c).xstate
        rw [hm']
        exact ⟨_, rfl, (Fg.own m').trail hk, hk.setMem, rfl, rfl⟩
      · exact ⟨k, rfl, .refl, hk, rfl, rfl⟩
    rw [hk1]
    rw [← hproc, ← hcurr] at hchild
    have hreap : Eases (fun _ => False) k1 (k1.setProc c { k1.proc c with state := .unused }) :=
      .freed hchild.2 rfl rfl
    exact ht.trans ((Fg.reap hchild.2 hchild.1).ret_trail hreap hat _)
  next =>
    split
    · exact sleep_trail hk (.refl k) _ (by simp)
    · exact ret_trail hk _

theorem sysFork_trail (hk : k.AtCall) : Trail Q P C k (k.sysFork.1.sysTail k.sysFork.2) := by
  simp only [sysFork]
  split
  · exact ret_trail hk _
  next c hc =>
    have hu : (k.proc c).state = .unused := by simpa using List.find?_some hc
    exact (Fg.fork hu).trail hk

theorem exit_trail (hk : k.Ready k.curr) (status v : Word) :
    Trail Q P C k ((k.terminate k.curr status).sysTail (.block v)) := by
  have htrail : Trail Q P C k (k.terminate k.curr status).swtch := .single (.die status hk)
  obtain ⟨m, hm⟩ := terminate_ends k k.curr status
  generalize k.terminate k.curr status = k' at htrail hm ⊢
  have hcurr : k'.curr = k.curr := congrArg Control.curr hm.ctl
  have hns : (k'.proc k'.curr).state ≠ .sleeping := by
    intro hsl
    rw [hcurr] at hsl
    exact hm.dead ⟨by simp [hsl], by simp [hsl]⟩
  rwa [sysTail, if_neg hns]

theorem sysKill_trail (hk : k.AtCall) (hcalm : Q → k.CalmKill)
    (hnum : Sys.ofNum (k.mailof k.curr).num = .kill) :
    Trail Q P C k ((k.sysKill (k.mailof k.curr)).1.sysTail (k.sysKill (k.mailof k.curr)).2) := by
  simp only [sysKill]
  split
  · exact ret_trail hk _
  next i hi =>
    have hpid : (k.proc i).pid = (k.mailof k.curr).a0 := by
      have := List.find?_some hi
      simp only [decide_eq_true_eq] at this
      exact this.2
    split
    · exact ret_trail hk _
    split
    next hcurr =>
      subst hcurr
      dsimp only
      exact exit_trail hk.ready _ _
    · split
      next hsl =>
        have hbg : BgTrail Q P k (k.terminate i (-1)) :=
          (Bg.terminate _ hsl fun hq => hcalm hq hnum i hpid).trail
        generalize k.terminate i (-1) = k' at hbg ⊢
        exact hbg.trail.trans (ret_trail (hk.bgTrail hbg) _)
      next =>
        have hbg : BgTrail Q P k (k.setProc i { k.proc i with killed := true }) :=
          setProc_trail rfl rfl
        exact hbg.trail.trans (ret_trail (hk.bgTrail hbg) _)

theorem sysExec_eq_of_none (h : (k.place a.program).2 = none) :
    k.sysExec m a = ((k.place a.program).1, .ret (-1)) := by
  unfold sysExec
  generalize k.place a.program = r at h ⊢
  obtain ⟨k', o⟩ := r
  cases h
  rfl

theorem sysExec_outcome_of_some
    (h : (k.place a.program).2.isSome) : (k.sysExec m a).2 = .resume := by
  unfold sysExec
  generalize k.place a.program = r at h ⊢
  obtain ⟨k', o⟩ := r
  cases o with
  | none => simp at h
  | some x => rfl

theorem sysExec_trail (hk : k.AtCall) (hC : C k a)
    (hnum : Sys.ofNum (k.mailof k.curr).num = .exec) :
    Trail Q P C k ((k.sysExec (k.mailof k.curr) a).1.sysTail (k.sysExec (k.mailof k.curr) a).2) := by
  cases hp : (k.place a.program).2 with
  | none =>
    rw [sysExec_eq_of_none hp]
    exact ((Fg.place hC hnum hp).trail hk).trans (ret_trail (hk.of_face (place_face k _)) _)
  | some x =>
    have hsome : (k.place a.program).2.isSome := by simp [hp]
    rw [sysExec_outcome_of_some hsome]
    exact ((Fg.exec hC hnum hsome).trail hk).trans (turn_trail rfl rfl rfl rfl)

theorem sysSigreturn_trail (hk : k.AtCall) :
    Trail Q P C k (k.sysSigreturn.1.sysTail k.sysSigreturn.2) := by
  simp only [sysSigreturn]
  split
  · exact ret_trail hk _
  · have himg : (k.setProc k.curr { k.proc k.curr with
        sigpend := .idle, state := .running }).img k.curr = k.img k.curr := by
      simp [setProc, img]
    rw [himg]
    exact ((Fg.resume _).trail hk).trans (turn_trail rfl rfl rfl rfl)

/-- The calls that only set a field of the caller or the console. -/
theorem frame_ret_trail (hk : k.AtCall) (hf : Frame k k') (v : Word) :
    Trail Q P C k (k'.sysTail (.ret v)) :=
  hf.trail.trail.trans (ret_trail (hk.of_face hf.face) v)

theorem dispatch_trail (hk : k.AtCall) (hC : C k a) (hcalm : Q → CalmBytes P a.rx k)
    (hkill : Q → k.CalmKill) : Trail Q P C k ((k.dispatch (k.mailof k.curr) a).1.sysTail
      (k.dispatch (k.mailof k.curr) a).2) := by
  rw [dispatch]
  split
  · exact sysFork_trail hk
  · dsimp only
    exact exit_trail hk.ready _ _
  · exact sysWait_trail hk
  next h => exact needFs_trail hk ⟨(Fg.pipe _ hC h).trail hk, kfsPipe_atCall hk _⟩
  next h => exact sysRead_trail hk hC hcalm h
  next h => exact sysKill_trail hk hkill h
  next h => exact sysExec_trail hk hC h
  · exact needFs_trail hk ⟨(Fg.dup _).trail hk, hk.of_face (kfsDup_run k _).face⟩
  · exact ret_trail hk _
  · obtain ⟨m, hm⟩ := ksbrk_face k (k.mailof k.curr).a0
    exact ((Fg.sbrk _).trail hk).trans (ret_trail (hk.setMem.of_face hm) _)
  · exact sleep_trail hk (armTimed_frame k _ _ _) _ (by simp)
  next h =>
    exact needFs_trail hk ⟨(Fg.open hC h).trail hk,
      hk.eases (R := fun _ => False) (kfsOpen_run trivial trivial k a).eases⟩
  next h => exact sysWrite_trail hk hC h
  · exact needFs_trail hk ⟨(Fg.close _).trail hk,
      hk.eases (R := fun _ => False) (kfsClose_run trivial k _).eases⟩
  · refine frame_ret_trail hk ?_ _
    exact Frame.setProc rfl rfl
  · exact sysSigreturn_trail hk
  · rw [sysTtyraw]
    split
    · refine frame_ret_trail hk ?_ _
      exact ⟨rfl, rfl, rfl, rfl⟩
    · refine frame_ret_trail hk ?_ _
      exact ⟨rfl, rfl, rfl, rfl⟩
  · exact sysSelect_trail hk
  · obtain ⟨ht, hat⟩ := answer_trail (C := C) hk a
    exact ht.trans (ret_trail hat _)
  · exact ret_trail hk _

/-! ## Whose turn it is -/

/-- Whoever is about to run is awake. -/
structure Turn (k : Kernel) : Prop where
  user : k.phase = .user → k.parked = false → k.Ready k.curr
  syscall : k.phase = .entered .syscall → k.AtCall
  tick : k.phase = .entered .tick → k.waspark = false → k.Ready k.curr
  leaving : ∀ next, k.phase = .leaving (some next) → k.Ready next
  published : k.phase = .published → k.parked = false → k.Ready k.curr

theorem Turn.bgTrail (hk : k.Turn) (h : BgTrail Q P k k') : k'.Turn := by
  have hctl := h.ctl
  simp only [ctl, Control.mk.injEq] at hctl
  obtain ⟨hcurr, hphase, hparked, hwas⟩ := hctl
  constructor
  · rw [hphase, hparked, hcurr]
    exact fun hp hq => h.ready (hk.user hp hq)
  · rw [hphase]
    exact fun hp => (hk.syscall hp).bgTrail h
  · rw [hphase, hwas, hcurr]
    exact fun hp hq => h.ready (hk.tick hp hq)
  · rw [hphase]
    exact fun next hp => h.ready (hk.leaving next hp)
  · rw [hphase, hparked, hcurr]
    exact fun hp hq => h.ready (hk.published hp hq)

theorem pickFrom_runnable {l : List Slot} {filler : Option Slot} {i : Slot}
    (hf : ∀ j, filler = some j → (k.proc j).state = .runnable)
    (h : k.pickFrom l filler = some i) : (k.proc i).state = .runnable := by
  induction l generalizing filler with
  | nil => exact hf i h
  | cons j l ih =>
    rw [pickFrom] at h
    split at h
    next hj =>
      split at h
      · cases h
        exact hj
      · refine ih ?_ h
        rintro _ ⟨⟩
        exact hj
    next => exact ih hf h

theorem swtch_turn (k : Kernel) : k.swtch.Turn := by
  have hpick : ∀ next, k.pick = some next → (k.proc next).state = .runnable :=
    fun next h => pickFrom_runnable (by simp) h
  refine ⟨?_, ?_, ?_, ?_, ?_⟩ <;> try simp [swtch]
  intro next h
  exact .inl (hpick next h)

/-- After a handler the turn goes to a process that is awake. -/
theorem sysTail_turn {o : Outcome} (h : o = .resume → k.Ready k.curr) : (k.sysTail o).Turn := by
  cases o with
  | ret v =>
    refine ⟨?_, ?_, ?_, ?_, ?_⟩ <;> try simp [sysTail]
    simp [Ready, setProc, setret]
  | block v => exact swtch_turn _
  | resume =>
    refine ⟨?_, ?_, ?_, ?_, ?_⟩ <;> try simp [sysTail]
    exact h rfl

theorem sysExec_ready (h : (k.place a.program).2.isSome) :
    (k.sysExec m a).1.Ready (k.sysExec m a).1.curr := by
  obtain ⟨k1, hbare, heq⟩ := sysExec_eq_of_some (m := m) h
  have hface : k1.face = k.face := face_eq_of_bare hbare
  rw [heq]
  have hcurr : ((k1.enterImage k.curr a).vforkRelease k.curr).curr = k.curr :=
    (vforkRelease_eases _ _).curr.trans (congrArg (fun x : Face => x.ctl.curr) hface)
  right
  simp [markEnd, setProc, hcurr]

theorem ioOutcome_ne_resume (r : Word) : ioOutcome r ≠ .resume := by
  rw [ioOutcome]
  split <;> simp

theorem needFs_ne_resume {f : Kernel → Kernel × Word} : (k.needFs f).2 ≠ .resume := by
  rw [needFs]
  split <;> simp

/-- Only `exec` and `sigreturn` resume their caller themselves. -/
theorem dispatch_resume_ready
    (h : (k.dispatch m a).2 = .resume) : (k.dispatch m a).1.Ready (k.dispatch m a).1.curr := by
  rw [dispatch] at h ⊢
  cases hs : Sys.ofNum m.num <;> simp only [hs] at h ⊢
  case fork =>
    simp only [sysFork] at h
    split at h <;> cases h
  case exit => cases h
  case wait =>
    simp only [sysWait] at h
    split at h
    · cases h
    · split at h <;> cases h
  case pipe | dup | «open» | close => exact absurd h needFs_ne_resume
  case read | write => exact absurd h (ioOutcome_ne_resume _)
  case kill =>
    simp only [sysKill] at h
    split at h
    · cases h
    · split_ifs at h
  case exec =>
    cases hp : (k.place a.program).2 with
    | none => simp [sysExec_eq_of_none hp] at h
    | some x => exact sysExec_ready (by simp [hp])
  case getpid | sbrk | pause | signal | outside | unknown => cases h
  case sigreturn =>
    simp only [sysSigreturn] at h ⊢
    split at h
    · cases h
    next hctx =>
      rw [if_neg hctx]
      exact .inr (by simp [setProc])
  case ttyraw =>
    simp only [sysTtyraw] at h
    split at h <;> cases h
  case select =>
    simp only [sysSelect] at h
    split_ifs at h

theorem dmaKsyscall_turn (k : Kernel) (a : Answer) : (k.dmaKsyscall a).Turn := by
  rw [dmaKsyscall]
  split
  · exact swtch_turn _
  · exact sysTail_turn dispatch_resume_ready

theorem dmaKtick_turn (k : Kernel) : k.dmaKtick.Turn := by
  rw [dmaKtick]
  split_ifs <;> exact swtch_turn _

theorem kenter_face (k : Kernel) (e : Entry) : ∃ k1 : Kernel,
    (k1 = k ∨ k1 = k.kfsStart ∧ k.fsready = false ∧ k.dmaDisk = true) ∧ k.kenter e = { k1 with
      tickTaken := false, waspark := k1.parked, parked := false, phase := .entered e } := by
  rw [kenter]
  split
  next h =>
    simp only [Bool.and_eq_true, Bool.not_eq_true'] at h
    exact ⟨_, .inr ⟨rfl, h⟩, rfl⟩
  next => exact ⟨_, .inl rfl, rfl⟩

/-- What an event does, and when it can happen. -/
inductive StepCase (k : Kernel) : Event → Kernel → Prop where
  | user (mem : Word → Byte) (r0 : Word) (hp : k.phase = .user) (hq : k.parked = false) :
      StepCase k (.user mem r0) (k.runUser mem r0)
  | trap (m : Mail) (hp : k.phase = .user) (hq : k.parked = false) :
      StepCase k (.trap m) (k.trap m)
  | tick (hp : k.phase = .user) : StepCase k .tick (k.kenter .tick)
  | fire (f : Fire) (hp : k.phase ≠ .user) : StepCase k (.fire f) (k.fireIncome f)
  | drain (rx : List Byte) (hp : k.phase = .published) : StepCase k (.drain rx) (k.pollFg rx)
  | syscall (a : Answer) (hp : k.phase = .entered .syscall) :
      StepCase k (.handler a) (k.dmaKsyscall a)
  | ktick (a : Answer) (hp : k.phase = .entered .tick) : StepCase k (.handler a) k.dmaKtick
  | publish (next : Slot) (hp : k.phase = .leaving (some next)) :
      StepCase k .publish (k.kexit next)
  | park (hp : k.phase = .leaving none) :
      StepCase k .publish { k with parked := true, phase := .published }
  | leave (hp : k.phase = .published) : StepCase k .leave { k with phase := .user }

theorem step_cases (h : k.step e = some k') : StepCase k e k' := by
  unfold step at h
  split at h
  · cases h
  · split at h
    next hp =>
      split at h
      · cases h
      next hq =>
        cases h
        exact .user _ _ hp (by simpa using hq)
    next hp =>
      split at h
      · cases h
      next hq =>
        cases h
        exact .trap _ hp (by simpa using hq)
    next hp => cases h; exact .tick hp
    next hp => cases h; exact .fire _ (by simp [hp])
    next hp => cases h; exact .fire _ (by simp [hp])
    next hp => cases h; exact .fire _ (by simp [hp])
    next hp => cases h; exact .syscall _ hp
    next hp => cases h; exact .ktick _ hp
    next hp => cases h; exact .publish _ hp
    next hp => cases h; exact .park hp
    next hp =>
      split at h
      · cases h
        exact .drain _ hp
      · cases h
    next hp => cases h; exact .leave hp
    next => cases h

theorem Turn.step (hk : k.Turn) (h : k.step e = some k') : k'.Turn := by
  have hbg : ∀ {k'}, BgTrail False (fun _ => True) k k' → k'.Turn := hk.bgTrail
  cases step_cases h with
  | user mem r0 hp hq =>
    refine ⟨fun _ _ => hk.user hp hq, ?_, ?_, ?_, ?_⟩ <;> simp [runUser, hp]
  | trap m hp hq =>
    have hready := hk.user hp hq
    obtain ⟨k1, hk1, heq⟩ := kenter_face (k.fillMail m) .syscall
    have hface : k1.face = (k.fillMail m).face := by
      rcases hk1 with rfl | ⟨rfl, _⟩
      · rfl
      · exact kfsStart_face _
    have hfill : (k.fillMail m).AtCall := ⟨hready, by simp [fillMail, setMail]⟩
    have hat := hfill.of_face hface
    rw [Kernel.trap, heq]
    refine ⟨by simp, fun _ => ⟨hat.ready, hat.inCall⟩, by simp, by simp, by simp⟩
  | tick hp =>
    obtain ⟨k1, hk1, heq⟩ := kenter_face k .tick
    have hface : k1.face = k.face := by
      rcases hk1 with rfl | ⟨rfl, _⟩
      · rfl
      · exact kfsStart_face _
    refine ⟨?_, ?_, ?_, ?_, ?_⟩ <;> try simp [heq]
    intro hq
    have hctl : k1.ctl = k.ctl := congrArg Face.ctl hface
    simp only [ctl, Control.mk.injEq] at hctl
    have hready : k.Ready k.curr := hk.user hp (hctl.2.2.1 ▸ hq)
    have hslot : SlotEases (fun _ => False) k k1 k.curr := (Eases.of_face hface).slot _
    rw [hctl.1]
    exact hslot.ready hready
  | fire f hp => exact hbg (fireIncome_trail False.elim)
  | drain rx hp => exact hbg (pollFg_trail False.elim)
  | syscall a hp => exact dmaKsyscall_turn k a
  | ktick a hp => exact dmaKtick_turn k
  | publish next hp =>
    have hready := hk.leaving next hp
    refine ⟨?_, ?_, ?_, ?_, ?_⟩ <;> try simp [kexit]
    intro _
    split
    · simpa [Ready, setProc] using hready
    · exact hready
  | park hp => refine ⟨?_, ?_, ?_, ?_, ?_⟩ <;> simp
  | leave hp =>
    refine ⟨fun _ hq => hk.published hp hq, ?_, ?_, ?_, ?_⟩ <;> simp

/-- Every event is a sequence of actions. -/
theorem step_trail (hk : k.Turn) (hcalm : Q → k.CalmFor P e)
    (hC : ∀ a, e = .handler a → k.phase = .entered .syscall → C k a)
    (h : k.step e = some k') : Trail Q P C k k' := by
  have henter : ∀ (k : Kernel) (e : Entry), Trail Q P C k (k.kenter e) := by
    intro k e
    obtain ⟨k1, hk1, heq⟩ := kenter_face k e
    have hstart : Trail Q P C k k1 := by
      rcases hk1 with rfl | ⟨rfl, hfs, hd⟩
      · exact .refl
      · exact .single (.start hfs hd)
    rw [heq]
    exact hstart.trans (turn_trail rfl rfl rfl rfl)
  cases step_cases h with
  | user mem r0 hp hq => exact .single (.user mem r0 (hk.user hp hq))
  | trap m hp hq => exact Relation.ReflTransGen.trans (.single (.mail m (hk.user hp hq))) (henter _ _)
  | tick hp => exact henter k _
  | fire f hp => exact (fireIncome_trail hcalm).trail
  | drain rx hp => exact (pollFg_trail hcalm).trail
  | syscall a hp =>
    rw [dmaKsyscall]
    split
    · exact .single (.die _ (hk.syscall hp).ready)
    · exact dispatch_trail (hk.syscall hp) (hC a rfl hp) (fun hq => (hcalm hq).1) fun hq => (hcalm hq).2 hp
  | ktick a hp =>
    rw [dmaKtick]
    split
    · exact swtch_trail k
    next hwas =>
      have hready := hk.tick hp (by simpa using hwas)
      split
      · exact .single (.die _ hready)
      split
      next hrun => exact Relation.ReflTransGen.trans (.single (.yield hrun rfl)) (swtch_trail _)
      next => exact swtch_trail k
  | publish next hp =>
    have hsig : Frame k (if (k.proc next).sigpend = .pending ∧ (k.proc next).sigctx ≠ 0 then
        k.setProc next { k.proc next with sigpend := .inHandler } else k) := by
      split
      · exact .setProc rfl rfl
      · exact .refl k
    exact hsig.trail.trail.trans (turn_trail rfl rfl rfl rfl)
  | park hp | leave hp => exact turn_trail rfl rfl rfl rfl

end Kernel

end DmaCpu.Xv6
