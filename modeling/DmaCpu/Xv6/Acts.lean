-- SUMMARY: What events do to the process table and the open files, without assumptions on signals.
import DmaCpu.Xv6.PipeLoops
import DmaCpu.Xv6.Trail

/-!
# The process table and the open files

The actions of `Trail.lean` in terms of the process table and the open files:
who is in the process table and who refers to which file does not depend on
which processes the signals hit.
-/
namespace DmaCpu.Xv6

/-- A sleeper once it is woken. -/
def Ident.wake (x : Ident) : Ident := { x with chan := .none, state := .runnable }

variable {k k' : Kernel} {i : Slot} {P : Slot → Prop} {k'' : Kernel}

namespace Kernel

/-! ## Waking processes -/

/-- Code that wakes sleepers and does nothing else to the process table. -/
structure Wakens (k k' : Kernel) : Prop where
  slot : ∀ i, k'.ident i = k.ident i ∨
    (k.proc i).state = .sleeping ∧ k'.ident i = (k.ident i).wake
  env : k'.env = k.env

/-- It does nothing to the open files either. -/
structure Nudges (k k' : Kernel) : Prop extends Wakens k k' where
  files : k'.files = k.files

theorem Wakens.of_ident (h : k'.ident = k.ident) (henv : k'.env = k.env) : Wakens k k' :=
  ⟨fun i => .inl (congrFun h i), henv⟩

theorem Wakens.trans (h : Wakens k k') (h' : Wakens k' k'') : Wakens k k'' := by
  refine ⟨fun i => ?_, h'.env.trans h.env⟩
  rcases h.slot i with hi | ⟨hsl, hi⟩
  · have hst : (k'.proc i).state = (k.proc i).state := congrArg Ident.state hi
    rcases h'.slot i with hi' | ⟨hsl', hi'⟩
    · exact .inl (hi'.trans hi)
    · exact .inr ⟨hst.symm.trans hsl', hi'.trans (congrArg Ident.wake hi)⟩
  · have hst : (k'.proc i).state = .runnable := congrArg Ident.state hi
    rcases h'.slot i with hi' | ⟨hsl', _⟩
    · exact .inr ⟨hsl, hi'.trans hi⟩
    · exact nomatch hst.symm.trans hsl'

theorem Wakens.ready (h : Wakens k k') (hi : k.Ready i) : k'.Ready i := by
  rcases h.slot i with hid | ⟨_, hid⟩
  · have hst : (k'.proc i).state = (k.proc i).state := congrArg Ident.state hid
    rwa [Ready, hst]
  · exact .inl (congrArg Ident.state hid)

theorem live_iff_of_ident (h : k'.ident i = k.ident i) : k'.Live i ↔ k.Live i := by
  have hst : (k'.proc i).state = (k.proc i).state := congrArg Ident.state h
  rw [Live, Live, hst]

theorem Wakens.live_iff (h : Wakens k k') (i : Slot) : k'.Live i ↔ k.Live i := by
  rcases h.slot i with hid | ⟨hsl, hid⟩
  · exact live_iff_of_ident hid
  · have hst : (k'.proc i).state = .runnable := congrArg Ident.state hid
    simp [Live, hst, hsl]

theorem Wakens.ctl (h : Wakens k k') : k'.ctl = k.ctl := congrArg Env.ctl h.env

theorem Wakens.initpid (h : Wakens k k') : k'.initpid = k.initpid :=
  congrArg Env.initpid h.env

theorem Wakens.curr (h : Wakens k k') : k'.curr = k.curr :=
  congrArg Control.curr h.ctl

namespace Nudges

theorem of_eq (h : k'.ident = k.ident) (henv : k'.env = k.env)
    (hfiles : k'.files = k.files) : Nudges k k' :=
  { Wakens.of_ident h henv with files := hfiles }

theorem refl (k : Kernel) : Nudges k k := of_eq rfl rfl rfl

theorem trans (h : Nudges k k') (h' : Nudges k' k'') : Nudges k k'' :=
  { h.toWakens.trans h'.toWakens with files := h'.files.trans h.files }

theorem foldl {α : Type} {f : Kernel → α → Kernel} (hf : ∀ k a, Nudges k (f k a))
    (l : List α) (k : Kernel) : Nudges k (l.foldl f k) :=
  List.foldlRecOn l f (refl k) fun k' h a _ => h.trans (hf k' a)

theorem proc_eq_of_still (h : k'.still = k.still) : k'.proc = k.proc := by
  have hproc : k'.still.proc = k.still.proc := congrArg proc h
  exact hproc

/-- Moving bytes through a pipe. -/
theorem of_still (h : k'.still = k.still) : Nudges k k' := by
  have hid : k'.still.ident = k.still.ident := congrArg ident h
  have henv : k'.still.env = k.still.env := congrArg env h
  have hfiles : k'.still.files = k.still.files := congrArg Kernel.files h
  exact of_eq hid henv hfiles

/-- Work in the arena. -/
theorem of_bare (h : k'.bare = k.bare) : Nudges k k' := by
  have hid : k'.bare.ident = k.bare.ident := congrArg ident h
  have henv : k'.bare.env = k.bare.env := congrArg env h
  have hfiles : k'.bare.files = k.bare.files := congrArg Kernel.files h
  exact of_eq hid henv hfiles

theorem setProc {p : Proc} (h : p.ident = k.ident i) : Nudges k (k.setProc i p) :=
  of_eq (setProc_ident h) rfl rfl

theorem wake (h : (k.proc i).state = .sleeping) : Nudges k (k.wake i) := by
  refine { slot := fun j => ?_, env := rfl, files := rfl }
  by_cases hj : j = i
  · subst hj
    exact .inr ⟨h, by simp [ident, Kernel.wake, Kernel.setProc, Proc.ident, Ident.wake]⟩
  · exact .inl (by simp [ident, Kernel.wake, Kernel.setProc, hj])

theorem kcomplete (h : (k.proc i).state = .sleeping) (v : Word) : Nudges k (k.kcomplete i v) := by
  have hret : Nudges k (k.setret i v) := of_eq rfl rfl rfl
  exact hret.trans (wake h)

theorem completeAll {c : Chan} {v : Kernel → Slot → Word} (fuel : Nat) (k : Kernel) :
    Nudges k (completeAll c v fuel k) := by
  induction fuel generalizing k with
  | zero => exact refl k
  | succ fuel ih =>
    rw [Kernel.completeAll]
    split
    · exact refl k
    next s hs => exact (kcomplete (kfindSleeper_some hs).1 _).trans (ih _)

theorem pipeclose (k : Kernel) (pi : PipeId) (w : Bool) : Nudges k (k.pipeclose pi w) := by
  have hset : ∀ (k : Kernel) (p : Pipe), Nudges k (k.setPipe pi p) := fun k p => of_eq rfl rfl rfl
  have hend : Nudges k (k.closeEnd pi w) := by
    cases w with
    | true | false => exact (hset k _).trans (completeAll _ _)
  rw [Kernel.pipeclose]
  generalize k.closeEnd pi w = k' at hend ⊢
  split
  · exact hend.trans (hset k' _)
  · exact hend

theorem vforkRelease (k : Kernel) (i : Slot) : Nudges k (k.vforkRelease i) := by
  refine foldl (fun k q => ?_) _ k
  split
  next h => exact kcomplete h.1 _
  next => exact refl k

theorem pullWriter (k : Kernel) (pi : PipeId) : Nudges k (k.pullWriter pi) := by
  cases h : k.kfindSleeper (.nwrite pi) with
  | none =>
    rw [pullWriter_of_none h]
    exact refl k
  | some ws =>
    have hpull : Nudges k (k.pullInto pi ws) := of_still (putAll_moved ..).still
    have hsl : ((k.pullInto pi ws).proc ws).state = .sleeping := by
      rw [pullInto, proc_eq_of_still (putAll_moved ..).still]
      exact (kfindSleeper_some h).1
    rw [pullWriter_of_some h]
    dsimp only
    split
    · exact hpull.trans (kcomplete hsl _)
    · exact hpull.trans (of_eq rfl rfl rfl)

theorem deposit (k : Kernel) (pi : PipeId) (addr n : Word) : Nudges k (k.deposit pi addr n).1 := by
  rw [Kernel.deposit]
  split
  · exact refl k
  next rs hrs =>
    refine (of_still (depositLoop_still ..)).trans (kcomplete ?_ _)
    rw [proc_eq_of_still (depositLoop_still ..)]
    exact (kfindSleeper_some hrs).1

end Nudges

/-! ## Closing files and ending processes -/

theorem Wakens.refl (k : Kernel) : Wakens k k := .of_ident rfl rfl

theorem FileRun.wakens (h : FileRun True True True k k') : Wakens k k' := by
  induction h with
  | refl => exact .refl k
  | tail _ hs ih =>
    refine ih.trans ?_
    cases hs with
    | file | ofile | panic | openPipe => exact .of_ident rfl rfl
    | close => exact (Nudges.pipeclose ..).toWakens
    | poke _ i a v =>
      obtain ⟨m, hm⟩ := pokeWord_eq _ i a v
      rw [hm]
      exact .of_ident rfl rfl

theorem kfsStart_ident (k : Kernel) : k.kfsStart.ident = k.ident :=
  kfsStart_inv ident (fun _ _ _ => rfl) (fun _ _ _ _ => rfl) (fun _ => rfl) (fun _ => rfl) k

/-- The state of process `i` before its files are closed. -/
def dying (k : Kernel) (i : Slot) (status : Word) : Kernel :=
  (k.dropRaw i).setProc i { (k.dropRaw i).proc i with xstate := status }

section

variable (k : Kernel) (i : Slot)

theorem dying_env (status : Word) : (k.dying i status).env = k.env := by
  rw [dying, dropRaw]
  split <;> rfl

theorem dying_files (status : Word) :
    (k.dying i status).files = k.files := by
  rw [dying, dropRaw]
  split <;> rfl

/-- `terminate` closes files and wakes processes, and then hands the children over. -/
theorem unwind_eq (status : Word) :
    ∃ k1, Wakens (k.dying i status) k1 ∧
      k1.files = (if k.fsready then (k.dying i status).kfsExit i else k.dying i status).files ∧
      k.unwind i status = if k.initpid ≠ 0 then k1.reparent i else k1 := by
  have hdrop : (k.dying i status).fsready = k.fsready := congrArg Env.fsready (dying_env k i status)
  have hexit : Wakens (k.dying i status)
      (if k.fsready then (k.dying i status).kfsExit i else k.dying i status) := by
    split
    · exact (kfsExit_run trivial _ i).wakens
    · exact .refl _
  generalize hk2 : (if k.fsready then (k.dying i status).kfsExit i else k.dying i status) = k2
    at hexit ⊢
  have hrel : Nudges k2 ((k2.kfreeExec i).vforkRelease i) :=
    (Nudges.of_bare (kfreeExec_bare k2 i)).trans (.vforkRelease _ i)
  have hinit : ((k2.kfreeExec i).vforkRelease i).initpid = k.initpid :=
    (hexit.trans hrel.toWakens).initpid.trans (congrArg Env.initpid (dying_env k i status))
  refine ⟨(k2.kfreeExec i).vforkRelease i, hexit.trans hrel.toWakens, hrel.files, ?_⟩
  have hdying : (k.dropRaw i).setProc i { (k.dropRaw i).proc i with xstate := status } =
    k.dying i status := rfl
  simp [unwind, hdying, hdrop, hk2, hinit]

theorem reparent_env_files :
    (k.reparent i).env = k.env ∧ (k.reparent i).files = k.files := by
  rw [reparent, forSlots]
  generalize List.finRange nproc = l
  induction l generalizing k with
  | nil => exact ⟨rfl, rfl⟩
  | cons q l ih =>
    rw [List.foldl_cons]
    split
    · exact ih _
    · exact ih k

theorem unwind_env (status : Word) : (k.unwind i status).env = k.env := by
  obtain ⟨k1, hw, _, heq⟩ := unwind_eq k i status
  have hk1 : k1.env = k.env := hw.env.trans (dying_env k i status)
  rw [heq]
  split
  · exact (reparent_env_files k1 i).1.trans hk1
  · exact hk1

theorem unwind_files (status : Word) :
    (k.unwind i status).files =
      (if k.fsready then (k.dying i status).kfsExit i else k.dying i status).files := by
  obtain ⟨k1, _, hf, heq⟩ := unwind_eq k i status
  rw [heq, ← hf]
  split
  · exact (reparent_env_files k1 i).2
  · rfl

end

theorem reapInto_nudges {q : Slot} (h : (k.proc q).state = .sleeping) :
    Nudges k (k.reapInto i q) := by
  simp only [reapInto]
  split
  · obtain ⟨m, hm⟩ := pokeWord_eq k q (k.mailof q).a0 (k.proc i).xstate
    have hset : Nudges k (k.setMem q m) := .of_eq rfl rfl rfl
    rw [hm]
    exact hset.trans (.kcomplete (k := k.setMem q m) h _)
  · exact .kcomplete h _

section

variable (k : Kernel) (i : Slot) (status : Word)

/-- Whoever waits for the process is woken, and then the slot is out of use. -/
theorem terminate_reaps :
    ∃ k1 b, Nudges (k.unwind i status) k1 ∧ k.terminate i status = k1.bury i b := by
  unfold terminate
  generalize k.unwind i status = k'
  dsimp only
  split
  next q hq =>
    have hsl := List.find?_some hq
    rw [decide_eq_true_iff] at hsl
    exact ⟨_, true, reapInto_nudges hsl.2.1, rfl⟩
  next => exact ⟨k', false, .refl k', rfl⟩

theorem terminate_env :
    (k.terminate i status).env = k.env := by
  obtain ⟨k1, b, hn, heq⟩ := terminate_reaps k i status
  rw [heq]
  exact (show (k1.bury i b).env = k1.env from rfl).trans (hn.env.trans (unwind_env k i status))

theorem terminate_files :
    (k.terminate i status).files =
      (if k.fsready then (k.dying i status).kfsExit i else k.dying i status).files := by
  obtain ⟨k1, b, hn, heq⟩ := terminate_reaps k i status
  rw [heq, ← unwind_files]
  exact (show (k1.bury i b).files = k1.files from rfl).trans hn.files

end

/-! ## Actions -/

/-- One action on the process table or the open files. New entries of the file
    table are opened only if `A` holds. -/
inductive Act (A : Prop) (k : Kernel) : Kernel → Prop where
  | nudges {k' : Kernel} (h : Nudges k k') : Act A k k'
  | terminate {i : Slot} (status : Word) (h : k.Live i) : Act A k (k.terminate i status)
  /-- Control changes, or the record of a pipe call. -/
  | turn {k' : Kernel} (h : k'.ident = k.ident) (hfiles : k'.files = k.files)
      (henv : { k'.env with ctl := k.ctl, inCall := k.inCall } = k.env) : Act A k k'
  | run {i : Slot} {s : ProcState} (h : k.Ready i) (hs : s = .runnable ∨ s = .running) :
      Act A k (k.setProc i { k.proc i with state := s })
  | sleep (c : Chan) (h : k.Ready k.curr) : Act A k (k.sleep c)
  | reap {c : Slot} (hz : (k.proc c).state = .zombie)
      (hp : (k.proc c).ppid = (k.proc k.curr).pid) :
      Act A k (k.setProc c { k.proc c with state := .unused })
  | fork {c : Slot} (h : k.Ready k.curr) (hc : (k.proc c).state = .unused) :
      Act A k ((k.copied c).forkInto c)
  | close (fd : Word) (h : k.Ready k.curr) : Act A k (k.kfsClose fd).1
  | dup (fd : Word) (h : k.Ready k.curr) : Act A k (k.kfsDup fd).1
  | open (a : Answer) (hA : A) (h : k.Ready k.curr) : Act A k (k.kfsOpen a).1
  | pipe (fdarray : Word) (hA : A) (h : k.Ready k.curr) : Act A k (k.kfsPipe fdarray).1
  | start (h : k.fsready = false) (hd : k.dmaDisk = true) : Act A k k.kfsStart

abbrev ActRun (A : Prop) := Relation.ReflTransGen (Act A)

variable {A : Prop}

theorem Act.acts (h : Act A k k') : ActRun A k k' := .single h

theorem Nudges.acts (h : Nudges k k') : ActRun A k k' := (Act.nudges h).acts

theorem Bg.act {Q : Prop} (h : Bg Q P k k') : Act A k k' := by
  cases h with
  | frame h => exact .nudges (.of_eq h.ident h.env h.files)
  | wake h => exact .nudges (.wake (h.elim And.left And.left))
  | select v h => exact .nudges (.kcomplete (h.elim And.left And.left) v)
  | interrupt h _ => exact .nudges (.kcomplete h _)
  | terminate status h _ => exact .terminate status (live_of_sleeping h)

theorem turn_acts (h : k'.ident = k.ident) (hfiles : k'.files = k.files)
    (henv : { k'.env with ctl := k.ctl, inCall := k.inCall } = k.env) : ActRun A k k' :=
  (Act.turn h hfiles henv).acts

theorem swtch_acts (k : Kernel) : ActRun A k k.swtch := turn_acts rfl rfl rfl

theorem sysTail_acts {o : Outcome} (h : ∀ v, o = .ret v → k.Ready k.curr) :
    ActRun A k (k.sysTail o) := by
  have hret : ∀ (k : Kernel) (v : Word), Nudges k (k.setret k.curr v) := fun k v => .of_eq rfl rfl rfl
  cases o with
  | ret v =>
    have hrun : Act A (k.setret k.curr v) _ := .run (h v rfl) (.inr rfl)
    exact ((hret k v).acts.trans hrun.acts).trans (turn_acts rfl rfl rfl)
  | block v =>
    rw [sysTail]
    split
    · exact (hret k v).acts.trans (swtch_acts _)
    · exact swtch_acts k
  | resume => exact turn_acts rfl rfl rfl

theorem Wakens.ready_curr (h : Wakens k k') (hk : k.Ready k.curr) : k'.Ready k'.curr := by
  rw [h.curr]
  exact h.ready hk

/-- The end of a `read` or `write`: if it answers its caller, the caller is still
    awake. -/
theorem ioTail_acts {r : Kernel × Word} (h : ActRun A k r.1)
    (hr : r.2 ≠ blocked → r.1.Ready r.1.curr) : ActRun A k (ioTail r) := by
  refine h.trans (sysTail_acts fun v hv => ?_)
  rw [ioOutcome] at hv
  split at hv
  · cases hv
  next hne => exact hr hne

section

variable (hk : k.Ready k.curr) (pi : PipeId) (addr n : Word)
include hk

theorem piperead_actRun :
    ActRun A k (ioTail (k.piperead pi addr n)) := by
  have hopen : Act A k (k.openRead pi n) := .turn rfl rfl rfl
  have hdrain : Nudges (k.openRead pi n) (k.drainInto pi addr n) := .of_still (drainInto_still ..)
  have hpull := hdrain.trans (.pullWriter _ pi)
  have hready := hpull.ready_curr hk
  have hacts := hopen.acts.trans hpull.acts
  rw [piperead_eq]
  dsimp only
  split
  · exact ioTail_acts hacts fun _ => hready
  split
  · exact ioTail_acts (hacts.trans (Act.sleep _ hready).acts) fun hr => absurd rfl hr
  · exact ioTail_acts hacts fun _ => hready

theorem parkWriter_acts
    (done : Nat) : ActRun A k (k.parkWriter pi addr n done) := by
  have hsleep : ∀ k1, Nudges k k1 → ActRun A k (k1.sleep (.nwrite pi)) := fun k1 h =>
    h.acts.trans (Act.sleep _ (h.ready_curr hk)).acts
  exact hsleep _ (.of_eq rfl rfl rfl)

theorem pipewrite_actRun :
    ActRun A k (ioTail (k.pipewrite pi addr n)) := by
  have hopen : Act A k (k.openCall pi addr n) := .turn rfl rfl rfl
  cases hr : (k.pipes pi).readopen with
  | false =>
    rw [pipewrite_of_shut hr]
    exact ioTail_acts hopen.acts fun _ => hk
  | true =>
    have hdep := Nudges.deposit (k.openCall pi addr n) pi addr n
    rw [pipewrite_of_open hr]
    generalize (k.openCall pi addr n).deposit pi addr n = r at hdep ⊢
    obtain ⟨k1, d⟩ := r
    have hfill : Nudges k1 (k1.fillInto pi addr n d) := .of_still (putAll_moved ..).still
    have hready := (hdep.trans hfill).ready_curr hk
    have hacts := hopen.acts.trans (hdep.trans hfill).acts
    dsimp only at hready hacts ⊢
    split
    · exact ioTail_acts hacts fun _ => hready
    · exact ioTail_acts (hacts.trans (parkWriter_acts hready ..)) fun hr => absurd rfl hr

end

theorem Nudges.enterImage (k : Kernel) (i : Slot) (a : Answer) : Nudges k (k.enterImage i a) := by
  refine .of_eq ?_ rfl rfl
  exact setProc_ident rfl

theorem Nudges.markEnd (k : Kernel) (i : Slot) : Nudges k (k.markEnd i) := .of_eq rfl rfl rfl

theorem sysExec_acts (hk : k.Ready k.curr) {m : Mail} {a : Answer}
    (hsome : (k.place a.program).2.isSome) : ActRun A k (k.sysExec m a).1 := by
  obtain ⟨k1, hbare, heq⟩ := sysExec_eq_of_some (m := m) hsome
  have hnudges := ((Nudges.of_bare hbare).trans (.enterImage k1 k.curr a)).trans
    (.vforkRelease _ k.curr)
  have hready := hnudges.ready_curr hk
  rw [hnudges.curr] at hready
  rw [heq]
  generalize (k1.enterImage k.curr a).vforkRelease k.curr = k2 at hnudges hready ⊢
  have hrun : Act A k2 _ := .run hready (.inr rfl)
  exact (hnudges.acts.trans hrun.acts).trans (Nudges.markEnd _ _).acts

theorem resume_acts (hk : k.Ready k.curr) (r0 : Img → Word) :
    ActRun A k { k.setProc k.curr { k.proc k.curr with sigpend := .idle, state := .running } with
      r0 := r0 } := by
  have hsig : Nudges k (k.setProc k.curr { k.proc k.curr with sigpend := .idle }) := .setProc rfl
  have hrun : Act A _ ((k.setProc k.curr { k.proc k.curr with sigpend := .idle }).setProc k.curr
      { (k.setProc k.curr { k.proc k.curr with sigpend := .idle }).proc k.curr with
        state := .running }) := .run (hsig.ready hk) (.inr rfl)
  have htwice : (k.setProc k.curr { k.proc k.curr with sigpend := .idle }).setProc k.curr
      { (k.setProc k.curr { k.proc k.curr with sigpend := .idle }).proc k.curr with
        state := .running } =
      k.setProc k.curr { k.proc k.curr with sigpend := .idle, state := .running } := by
    simp [setProc]
  rw [htwice] at hrun
  have hr0 : ∀ k : Kernel, Nudges k { k with r0 := r0 } := fun k => .of_eq rfl rfl rfl
  exact (hsig.acts.trans hrun.acts).trans (hr0 _).acts

/-- A call that opens files is made only if `A` holds. -/
def MayOpen (A : Prop) (k : Kernel) (_ : Answer) : Prop :=
  Sys.ofNum (k.mailof k.curr).num = .open ∨ Sys.ofNum (k.mailof k.curr).num = .pipe → A

theorem Fg.actRun (h : Fg (MayOpen A) k k') (hk : k.AtCall) : ActRun A k k' := by
  have hc := hk.ready
  have hblock : ∀ {k1 : Kernel} (v : Word), Act A k k1 → ActRun A k (k1.sysTail (.block v)) :=
    fun v h => h.acts.trans (sysTail_acts fun _ hv => nomatch hv)
  cases h with
  | own m => exact Nudges.acts (.of_eq rfl rfl rfl)
  | ret v => exact sysTail_acts fun _ _ => hc
  | sleep v _ => exact hblock v (.sleep _ hc)
  | reap hz hp => exact (Act.reap hz hp).acts
  | resume v => exact resume_acts hc _
  | fork hu => exact hblock 0 (.fork hc hu)
  | exec _ _ h => exact sysExec_acts hc h
  | place => exact (Nudges.of_bare (place_bare k _)).acts
  | sbrk n =>
    obtain ⟨m, hm⟩ := ksbrk_bare k n
    have hset : Nudges k (k.setMem k.curr m) := .of_eq rfl rfl rfl
    exact (hset.trans (.of_bare hm)).acts
  | close fd => exact (Act.close fd hc).acts
  | dup fd => exact (Act.dup fd hc).acts
  | «open» hA h => exact (Act.open _ (hA (.inl h)) hc).acts
  | pipe fdarray hA h => exact (Act.pipe fdarray (hA (.inr h)) hc).acts
  | read => exact piperead_actRun hc _ _ _
  | write => exact pipewrite_actRun hc _ _ _

theorem Atom.actRun {Q : Prop} (h : Atom Q P (MayOpen A) k k') :
    ActRun A k k' := by
  cases h with
  | bg h => exact h.act.acts
  | fg hk h => exact h.actRun hk
  | user | mail => exact turn_acts rfl rfl rfl
  | start h hd => exact (Act.start h hd).acts
  | turn _ hid hfiles henv =>
    have hin : k'.inCall = k.inCall := congrArg Env.inCall henv
    exact turn_acts hid hfiles (hin ▸ henv)
  | yield hk h =>
    subst h
    exact (Act.run (.inr hk) (.inl rfl)).acts
  | die status hk => exact (Act.terminate status hk.live).acts.trans (swtch_acts _)

/-! ## Events -/

/-- The event is the handler of an `open` or a `pipe`. -/
def Opens (k : Kernel) : Event → Prop
  | .handler _ => k.phase = .entered .syscall ∧
      (Sys.ofNum (k.mailof k.curr).num = .open ∨ Sys.ofNum (k.mailof k.curr).num = .pipe)
  | _ => False

/-- Every event is a sequence of actions. -/
theorem step_acts {e : Event} (hk : k.Turn) (hA : k.Opens e → A) (h : k.step e = some k') :
    ActRun A k k' := by
  have htrail : Trail False (fun _ => True) (MayOpen A) k k' := by
    refine step_trail hk False.elim (fun a he hp ho => ?_) h
    subst he
    exact hA ⟨hp, ho⟩
  clear h
  induction htrail with
  | refl => exact .refl
  | tail _ ha ih => exact ih.trans ha.actRun

end Kernel

end DmaCpu.Xv6
