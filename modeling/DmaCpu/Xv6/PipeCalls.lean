-- SUMMARY: What a read or write of a pipe leaves alone, and the invariant of the pipe ends.
import DmaCpu.Xv6.Parked

/-!
# Pipe calls

A read serves at most one parked writer and a write at most one parked reader.
`IoFrame` collects what is not touched by such a call, stage by stage.
-/
namespace DmaCpu.Xv6

variable {k k' : Kernel} {pi : PipeId} {q : Option Slot} {s : Slot} {c : Chan} {addr n : Word}

namespace Kernel

/-- What a call on pipe `pi` leaves alone when it serves the sleeper `q`. Most
    stages leave most of it alone by definition. -/
structure IoFrame (k k' : Kernel) (pi : PipeId) (q : Option Slot) : Prop where
  curr : k'.curr = k.curr := by rfl
  img : ∀ s, k'.img s = k.img s := by exact fun _ => rfl
  others : ∀ s, s ≠ k.curr → q ≠ some s → (k'.proc s).place = (k.proc s).place := by
    exact fun _ _ _ => rfl
  inCall : ∀ s, s ≠ k.curr → k'.inCall s = k.inCall s := by exact fun _ _ => rfl
  image : ∀ j, j ≠ k.img k.curr → (∀ s, q = some s → j ≠ k.img s) → SameImg k k' j := by
    exact fun _ _ _ => ⟨rfl, rfl, rfl⟩
  nimg : k'.nimg = k.nimg := by rfl
  nstream : k'.nstream = k.nstream := by rfl
  ends : k'.face.ends = k.face.ends := by rfl
  pipes : ∀ pj, pj ≠ pi → k'.pipes pj = k.pipes pj := by exact fun _ _ => rfl
  stream : (k'.pipes pi).stream = (k.pipes pi).stream := by rfl
  moves : ∀ st, st ≠ (k.pipes pi).stream → k'.moves st = k.moves st := by exact fun _ _ => rfl

theorem IoFrame.trans {k k' k'' : Kernel} {pi : PipeId} {q : Option Slot}
    (h : IoFrame k k' pi q) (h' : IoFrame k' k'' pi q) : IoFrame k k'' pi q where
  curr := h'.curr.trans h.curr
  img s := (h'.img s).trans (h.img s)
  others s hs hq := (h'.others s (h.curr ▸ hs) hq).trans (h.others s hs hq)
  inCall s hs := (h'.inCall s (h.curr ▸ hs)).trans (h.inCall s hs)
  image j hj hq := by
    refine (h.image j hj hq).trans (h'.image j ?_ fun s hs => ?_)
    · rwa [h.curr, h.img]
    · rw [h.img]
      exact hq s hs
  nimg := h'.nimg.trans h.nimg
  nstream := h'.nstream.trans h.nstream
  ends := h'.ends.trans h.ends
  pipes pj hp := (h'.pipes pj hp).trans (h.pipes pj hp)
  stream := h'.stream.trans h.stream
  moves st hst := (h'.moves st (h.stream ▸ hst)).trans (h.moves st hst)

theorem IoFrame.mono (h : IoFrame k k' pi none) (q : Option Slot) : IoFrame k k' pi q :=
  { h with
    others := fun s hs _ => h.others s hs (by simp)
    image := fun j hj _ => h.image j hj (by simp) }

/-- Moving bytes through one pipe, from or to the images in question. -/
theorem IoFrame.of_moved {c n : Nat} {l : List Move} (h : Moved k k' pi c n l)
    (hj : ∀ j, j ≠ k.img k.curr → (∀ s, q = some s → j ≠ k.img s) → k'.mem j = k.mem j) :
    IoFrame k k' pi q where
  curr := congrArg (·.curr) h.still
  img s := congrArg (·.img s) h.still
  others s _ _ := congrArg (fun k => (k.proc s).place) h.still
  inCall s _ := congrArg (fun k => k.inCall s) h.still
  image j hj1 hj2 :=
    ⟨congrArg (fun k => k.mail j) h.still, congrArg (fun k => k.r0 j) h.still, hj j hj1 hj2⟩
  nimg := congrArg (·.nimg) h.still
  nstream := congrArg (·.nstream) h.still
  ends := congrArg (fun k => k.face.ends) h.still
  pipes := h.others
  stream := congrArg (fun k => (k.pipes pi).stream) h.still
  moves st hst := by rw [h.moves, Function.update_of_ne hst]

/-! ## The stages -/

theorem openRead_frame (k : Kernel) (pi : PipeId) (n : Word) :
    IoFrame k (k.openRead pi n) pi none where
  inCall s hs := by simp [openRead, hs]

theorem openCall_frame (k : Kernel) (pi : PipeId) (addr n : Word) :
    IoFrame k (k.openCall pi addr n) pi none where
  inCall s hs := by simp [openCall, hs]

theorem handByte_mem (pi : PipeId) {i : Slot} (dst : Word) (b : Byte) {j : Img}
    (h : j ≠ k.img i) : (k.handByte pi i dst b).mem j = k.mem j := by
  simp [handByte, log, poke, setMem, h]

theorem getAll_mem {i : Slot} (n : Nat) (dst : Word) {j : Img}
    (h : j ≠ k.img i) : (getAll pi i n dst k).mem j = k.mem j := by
  induction n generalizing dst k with
  | zero => rfl
  | succ n ih =>
    have hstep : (k.ringGet pi i dst).mem j = k.mem j := handByte_mem pi dst _ h
    exact (ih _ (k := k.ringGet pi i dst) h).trans hstep

theorem handOver_mem {c : Nat} {rs : Slot} (bs : List Byte) (dst : Word) {j : Img}
    (h : j ≠ k.img rs) : (handOver pi c rs bs dst k).mem j = k.mem j := by
  induction bs generalizing dst k with
  | nil => rfl
  | cons b bs ih =>
    have h' : j ≠ (k.takeByte pi c b).img rs := h
    have hstep : ((k.takeByte pi c b).handByte pi rs dst b).mem j = k.mem j := handByte_mem pi dst b h'
    exact (ih _ (k := (k.takeByte pi c b).handByte pi rs dst b) h).trans hstep

theorem putAll_frame (k : Kernel) (pi : PipeId) (c : Nat) (bs : List Byte) :
    IoFrame k (k.putAll pi c bs) pi none :=
  .of_moved (putAll_moved ..) fun j _ _ => by rw [putAll_mem]

theorem drainInto_frame (k : Kernel) (pi : PipeId) (addr n : Word) :
    IoFrame k (k.drainInto pi addr n) pi none :=
  (openRead_frame k pi n).trans
    (.of_moved (drainInto_moved k pi addr n 0) fun _ hj _ => getAll_mem _ _ hj)

theorem depositInto_frame (k : Kernel) (pi : PipeId) (rs : Slot) (addr n : Word) :
    IoFrame k (k.depositInto pi rs addr n) pi (some rs) :=
  .of_moved (handOver_moved ..) fun _ _ hj => handOver_mem _ _ (hj rs rfl)

theorem setProc_img {p : Proc} (h : p.img = k.img s) (t : Slot) :
    (k.setProc s p).img t = k.img t := by
  by_cases ht : t = s
  · subst ht
    simp [setProc, Kernel.img, h]
  · simp [setProc, Kernel.img, ht]

theorem kcomplete_frame (k : Kernel) (pi : PipeId) (s : Slot) (v : Word) :
    IoFrame k (k.kcomplete s v) pi (some s) where
  img := setProc_img rfl
  others t _ ht := kcomplete_others v fun h => ht (congrArg some h.symm)
  image j _ hj := by
    have := hj s rfl
    simp [SameImg, kcomplete, wake, setret, setProc, this]

theorem setMail_frame (k : Kernel) (pi : PipeId) (s : Slot) (m : Mail) :
    IoFrame k (k.setMail s m) pi (some s) where
  image j _ hj := by simp [SameImg, setMail, hj s rfl]

theorem pullWriter_frame (k : Kernel) (pi : PipeId) :
    IoFrame k (k.pullWriter pi) pi (k.kfindSleeper (.nwrite pi)) := by
  cases hws : k.kfindSleeper (.nwrite pi) with
  | none =>
    rw [pullWriter_of_none hws]
    exact (putAll_frame k pi 0 []).mono _
  | some ws =>
    have hput : IoFrame k (k.pullInto pi ws) pi (some ws) := (putAll_frame ..).mono _
    rw [pullWriter_of_some hws]
    dsimp only
    split
    · exact hput.trans (kcomplete_frame ..)
    · exact hput.trans (setMail_frame ..)

theorem deposit_frame (hv : k.Vfork) (hc : k.Ready k.curr) (pi : PipeId) (addr n : Word) :
    IoFrame k (k.deposit pi addr n).1 pi (k.kfindSleeper (.nread pi)) := by
  cases hrs : k.kfindSleeper (.nread pi) with
  | none =>
    rw [deposit_of_none hrs]
    exact (putAll_frame k pi 0 []).mono _
  | some rs =>
    rw [deposit_of_some hrs (hv.img_ne hc (kfindSleeper_some hrs) (by simp))]
    exact (depositInto_frame ..).trans (kcomplete_frame ..)

theorem sleep_frame (k : Kernel) (pi : PipeId) (c : Chan) : IoFrame k (k.sleep c) pi none where
  img := setProc_img rfl
  others s hs _ := by simp [sleep, setProc, hs]

theorem parkWriter_frame (k : Kernel) (pi : PipeId) (addr n : Word) (done : Nat) :
    IoFrame k (k.parkWriter pi addr n done) pi none where
  img := setProc_img rfl
  others s hs _ := by simp [parkWriter, sleep, setMail, setProc, hs]
  image j hj _ := by simp [SameImg, parkWriter, sleep, setMail, setProc, hj]

theorem sysTail_img (k : Kernel) (o : Outcome) (s : Slot) : (k.sysTail o).img s = k.img s := by
  cases o with
  | ret v =>
    exact setProc_img (k := k.setret k.curr v) (s := k.curr)
      (p := { k.proc k.curr with state := .running }) rfl s
  | resume => rfl
  | block v => rw [img, sysTail_block_proc, img]

theorem sysTail_ioFrame (k : Kernel) (pi : PipeId) (o : Outcome) :
    IoFrame k (k.sysTail o) pi none := by
  have ht := sysTail_frame k o
  have hcurr : (k.sysTail o).curr = k.curr ∧ (k.sysTail o).nimg = k.nimg ∧
      (k.sysTail o).pipes = k.pipes := by
    cases o with
    | ret v | resume => exact ⟨rfl, rfl, rfl⟩
    | block v =>
      rw [sysTail]
      split <;> exact ⟨rfl, rfl, rfl⟩
  exact ⟨hcurr.1, sysTail_img k o, fun s hs _ => by rw [ht.proc s hs], fun s _ => by rw [ht.inCall],
    fun j hj _ => ht.image j hj, hcurr.2.1, ht.nstream, ht.ends, fun pj _ => by rw [hcurr.2.2],
    by rw [hcurr.2.2], fun st _ => by rw [ht.moves]⟩

/-! ## Whole calls -/

theorem kfindSleeper_congr (h : k'.proc = k.proc) (c : Chan) :
    k'.kfindSleeper c = k.kfindSleeper c := by
  unfold kfindSleeper
  congr 1
  funext i
  refine decide_eq_decide.mpr ?_
  rw [SleepsOn, h, SleepsOn]

theorem drainInto_proc (k : Kernel) (pi : PipeId) (addr n : Word) :
    (k.drainInto pi addr n).proc = k.proc :=
  congrArg (·.proc) (drainInto_still ..)

/-- The images of the processes that a call does not serve are spared. -/
theorem IoFrame.sameImg (h : IoFrame k k' pi q) (hv : k.Vfork) (hc : k.Ready k.curr)
    (hq : ∀ t, q = some t → k.Watched t) (hw : k.Watched s) (hs : s ≠ k.curr)
    (hsq : q ≠ some s) : SameImg k k' (k.img s) := by
  refine h.image _ (hv.own_img hc hw hs) fun t ht he => hsq ?_
  have hwt := hq t ht
  rw [ht, hv.alone s t hw.live hwt.live he hw.not_isSuspended hwt.not_isSuspended]

theorem Ready.not_sleepsOn (h : k.Ready s) : ¬ k.SleepsOn s c := by
  rintro ⟨hs, _⟩
  rcases h with h | h <;> simp [h] at hs

theorem IoFrame.stream_eq (h : IoFrame k k' pi q)
    (pj : PipeId) : (k'.pipes pj).stream = (k.pipes pj).stream := by
  by_cases hp : pj = pi
  · rw [hp]
    exact h.stream
  · rw [h.pipes pj hp]

/-- A call that serves nobody spares everyone in another image. -/
theorem IoFrame.keeps (h : IoFrame k k' pi none) (hsl : k'.SleepsOn s c) (hs : s ≠ k.curr)
    (hne : k.img s ≠ k.img k.curr) : Stays k k' s c := by
  obtain ⟨hst, hch, hi⟩ := place_eq_iff.mp (h.others s hs (by simp))
  obtain ⟨hm, hpk, _⟩ := (h.image _ hne (by simp)).mailof hi
  exact ⟨⟨hst ▸ hsl.1, hch ▸ hsl.2⟩, hi, hm, hpk, h.inCall s hs⟩

section

variable (h : IoFrame k k' pi q) (hv : k.Vfork) (hc : k.Ready k.curr) (hq : ∀ t, q = some t → k.Watched t)
include h hv hc hq

theorem IoFrame.stays (hsl : k'.SleepsOn s c) (hpipe : Chan.IsPipe c)
    (hs : s ≠ k.curr) (hsq : q ≠ some s) : Stays k k' s c := by
  obtain ⟨hst, hch, hi⟩ := place_eq_iff.mp (h.others s hs hsq)
  have hs0 : k.SleepsOn s c := ⟨hst ▸ hsl.1, hch ▸ hsl.2⟩
  have himg := h.sameImg hv hc hq (.inr ⟨hs0.1, hs0.2 ▸ hpipe⟩) hs hsq
  obtain ⟨hm, hpk, _⟩ := himg.mailof hi
  exact ⟨hs0, hi, hm, hpk, h.inCall s hs⟩

theorem IoFrame.answer (hr : k'.Ready s) (hs : s ≠ k.curr) (hsq : q ≠ some s) :
    k.Ready s ∧ k'.r0 (k'.img s) = k.r0 (k.img s) ∧ k'.mailof s = k.mailof s := by
  obtain ⟨hst, _, hi⟩ := place_eq_iff.mp (h.others s hs hsq)
  have hr0 : k.Ready s := by simpa [Ready, hst] using hr
  obtain ⟨hm, _, hr'⟩ := (h.sameImg hv hc hq (.inl hr0) hs hsq).mailof hi
  exact ⟨hr0, hr', hm⟩

end

theorem kfindSleeper_watched (h : k.kfindSleeper c = some s)
    (hc : Chan.IsPipe c) : k.Watched s := by
  have hs := kfindSleeper_some h
  exact .inr ⟨hs.1, hs.2 ▸ hc⟩

/-! ## Outcomes -/

/-- The state in which a read answers or goes to sleep. -/
def readInto (k : Kernel) (pi : PipeId) (addr n : Word) : Kernel :=
  (k.drainInto pi addr n).pullWriter pi

/-- A count of bytes is not the value that means blocked. -/
theorem ofNat_ne_blocked {n : Nat} (h : n < 2 ^ 31) : BitVec.ofNat 32 n ≠ blocked := by
  intro he
  have hval : blocked.toNat = 2 ^ 32 - 3 := by decide
  have := congrArg BitVec.toNat he
  rw [BitVec.toNat_ofNat] at this
  omega

theorem toInt_toNat_lt (n : Word) : n.toInt.toNat < 2 ^ 31 := by
  have := BitVec.toInt_lt (x := n)
  omega

theorem readInto_frame (k : Kernel) (pi : PipeId) (addr n : Word) :
    IoFrame k (k.readInto pi addr n) pi (k.kfindSleeper (.nwrite pi)) := by
  have hpull := pullWriter_frame (k.drainInto pi addr n) pi
  rw [kfindSleeper_congr (drainInto_proc k pi addr n)] at hpull
  exact ((drainInto_frame k pi addr n).mono _).trans hpull

theorem IoFrame.flags (h : IoFrame k k' pi q)
    (pj : PipeId) : (k'.pipes pj).readopen = (k.pipes pj).readopen ∧
      (k'.pipes pj).writeopen = (k.pipes pj).writeopen ∧
      (k'.pipes pj).inuse = (k.pipes pj).inuse := by
  simpa [face] using congrFun h.ends pj

inductive ReadOutcome (k : Kernel) (pi : PipeId) (addr n : Word) : Kernel → Prop where
  | got (h : 0 < k.drained pi n) : ReadOutcome k pi addr n
      ((k.readInto pi addr n).sysTail (.ret (BitVec.ofNat 32 (k.drained pi n))))
  | parks (h : k.drained pi n = 0) (hw : (k.pipes pi).writeopen = true) : ReadOutcome k pi addr n
      (((k.readInto pi addr n).sleep (.nread pi)).sysTail (.block blocked))
  | eof (h : k.drained pi n = 0) (hw : (k.pipes pi).writeopen = false) : ReadOutcome k pi addr n
      ((k.readInto pi addr n).sysTail (.ret 0))

theorem read_outcome (k : Kernel) (pi : PipeId) (addr n : Word) :
    ReadOutcome k pi addr n (ioTail (k.piperead pi addr n)) := by
  have hlt : k.drained pi n < 2 ^ 31 := Nat.lt_of_le_of_lt (Nat.min_le_left _ _) (toInt_toNat_lt n)
  have hflag := (readInto_frame k pi addr n).flags pi
  rw [ioTail, piperead_eq]
  dsimp only
  split
  next h =>
    rw [ioOutcome, if_neg (ofNat_ne_blocked hlt)]
    exact .got h
  next h =>
    have h0 : k.drained pi n = 0 := by omega
    split
    next hw =>
      exact .parks h0 (hflag.2.1.symm.trans hw)
    next hw =>
      exact .eof h0 (hflag.2.1.symm.trans (Bool.eq_false_iff.mpr hw))

theorem read_frame (k : Kernel) (pi : PipeId) (addr n : Word) :
    IoFrame k (ioTail (k.piperead pi addr n)) pi (k.kfindSleeper (.nwrite pi)) := by
  have h := readInto_frame k pi addr n
  have hout := read_outcome k pi addr n
  generalize ioTail (k.piperead pi addr n) = k' at hout ⊢
  cases hout with
  | got | eof => exact h.trans ((sysTail_ioFrame ..).mono _)
  | parks => exact (h.trans ((sleep_frame ..).mono _)).trans ((sysTail_ioFrame ..).mono _)

/-- The number of bytes that a write disposes of before it may have to wait. -/
def disposed (k : Kernel) (pi : PipeId) (addr n : Word) : Nat :=
  let r := (k.openCall pi addr n).deposit pi addr n
  r.2 + r.1.filled pi n r.2

/-- The state in which a write answers or goes to sleep. -/
def writeInto (k : Kernel) (pi : PipeId) (addr n : Word) : Kernel :=
  let r := (k.openCall pi addr n).deposit pi addr n
  r.1.fillInto pi addr n r.2

inductive WriteOutcome (k : Kernel) (pi : PipeId) (addr n : Word) : Kernel → Prop where
  | refused (h : (k.pipes pi).readopen = false) :
      WriteOutcome k pi addr n ((k.openCall pi addr n).sysTail (.ret (-1)))
  | done (h : (k.pipes pi).readopen = true) (hd : (k.disposed pi addr n : Int) = n.toInt) :
      WriteOutcome k pi addr n ((k.writeInto pi addr n).sysTail (.ret n))
  | parks (h : (k.pipes pi).readopen = true) (hd : (k.disposed pi addr n : Int) ≠ n.toInt) :
      WriteOutcome k pi addr n
        (((k.writeInto pi addr n).parkWriter pi addr n (k.disposed pi addr n)).sysTail
          (.block blocked))

theorem write_outcome (k : Kernel) (pi : PipeId) (addr n : Word) :
    WriteOutcome k pi addr n (ioTail (k.pipewrite pi addr n)) := by
  cases hr : (k.pipes pi).readopen with
  | false =>
    have hneg : (-1 : Word) ≠ blocked := by decide
    rw [ioTail, pipewrite_of_shut hr, ioOutcome]
    exact .refused hr
  | true =>
    rw [ioTail, pipewrite_of_open hr]
    dsimp only
    split
    next hd =>
      have hn : n ≠ blocked := by
        rintro rfl
        have hneg : blocked.toInt < 0 := by decide
        omega
      rw [ioOutcome, if_neg hn]
      exact .done hr hd
    next hd =>
      exact .parks hr hd

theorem writeInto_frame (hv : k.Vfork) (hc : k.Ready k.curr) (pi : PipeId) (addr n : Word) :
    IoFrame k (k.writeInto pi addr n) pi (k.kfindSleeper (.nread pi)) := by
  have hv1 : (k.openCall pi addr n).Vfork := hv.of_procs rfl rfl
  have hdep := deposit_frame hv1 hc pi addr n
  exact (((openCall_frame k pi addr n).mono _).trans hdep).trans ((putAll_frame ..).mono _)

theorem write_frame (hv : k.Vfork) (hc : k.Ready k.curr) (pi : PipeId) (addr n : Word) :
    IoFrame k (ioTail (k.pipewrite pi addr n)) pi (k.kfindSleeper (.nread pi)) := by
  have h := writeInto_frame hv hc pi addr n
  have hout := write_outcome k pi addr n
  generalize ioTail (k.pipewrite pi addr n) = k' at hout ⊢
  cases hout with
  | refused => exact ((openCall_frame ..).trans (sysTail_ioFrame ..)).mono _
  | done => exact h.trans ((sysTail_ioFrame ..).mono _)
  | parks => exact (h.trans ((parkWriter_frame ..).mono _)).trans ((sysTail_ioFrame ..).mono _)

theorem sysTail_ret_state (k : Kernel) (v : Word) :
    ((k.sysTail (.ret v)).proc k.curr).state = .running := by
  simp [sysTail, setProc, setret]

/-- A read that sleeps found nothing in a pipe that can still be written. -/
theorem read_sleeps (h : (ioTail (k.piperead pi addr n)).SleepsOn k.curr c) :
    c = .nread pi ∧ k.drained pi n = 0 ∧ (k.pipes pi).writeopen = true := by
  have hcurr := (readInto_frame k pi addr n).curr
  have hout := read_outcome k pi addr n
  generalize ioTail (k.piperead pi addr n) = k' at h hout
  cases hout with
  | got | eof =>
    rw [← hcurr, SleepsOn, sysTail_ret_state] at h
    simp at h
  | parks h0 hw =>
    refine ⟨?_, h0, hw⟩
    rw [SleepsOn, sysTail_block_proc, ← hcurr] at h
    simpa [sleep, setProc] using h.2.symm

/-- A write that sleeps has bytes left for a reader that may still come. -/
theorem write_sleeps (hv : k.Vfork) (hc : k.Ready k.curr)
    (h : (ioTail (k.pipewrite pi addr n)).SleepsOn k.curr c) :
    c = .nwrite pi ∧ (k.disposed pi addr n : Int) ≠ n.toInt ∧ (k.pipes pi).readopen = true := by
  have hcurr := (writeInto_frame hv hc pi addr n).curr
  have hout := write_outcome k pi addr n
  generalize ioTail (k.pipewrite pi addr n) = k' at h hout
  cases hout with
  | refused =>
    have := sysTail_ret_state (k.openCall pi addr n) (-1)
    rw [SleepsOn, show k.curr = (k.openCall pi addr n).curr from rfl, this] at h
    simp at h
  | done =>
    rw [← hcurr, SleepsOn, sysTail_ret_state] at h
    simp at h
  | parks hr hd =>
    refine ⟨?_, hd, hr⟩
    rw [SleepsOn, sysTail_block_proc, ← hcurr] at h
    simpa [parkWriter, sleep, setMail, setProc] using h.2.symm

/-! ## The ends of the pipes -/

/-- Nobody is parked on a pipe whose other end is closed, and a pipe with an
    open end is in use. -/
structure Ports (k : Kernel) : Prop where
  settled : k.Settled
  inuse : ∀ pi, (k.pipes pi).readopen = true ∨ (k.pipes pi).writeopen = true →
    (k.pipes pi).inuse = true
  writer : ∀ s pi, k.SleepsOn s (.nwrite pi) → (k.pipes pi).readopen = true
  reader : ∀ s pi, k.SleepsOn s (.nread pi) → (k.pipes pi).writeopen = true

variable {P : Slot → Prop} {C : Kernel → Answer → Prop}

theorem Ports.quiet (hp : k.Ports) (h : Quiet P k k') : k'.Ports := by
  refine ⟨h.settled hp.settled, fun pi ho => ?_, fun s pi hs => ?_, fun s pi hs => ?_⟩
  · obtain ⟨hr, hw, hu⟩ := h.shut pi
    have hold : (k.pipes pi).readopen = true ∨ (k.pipes pi).writeopen = true := by
      rcases ho with ho | ho
      · rcases hr with hr | hr
        · exact .inl (hr ▸ ho)
        · simp [hr.1] at ho
      · rcases hw with hw | hw
        · exact .inr (hw ▸ ho)
        · simp [hw.1] at ho
    rcases hu with hu | hu
    · exact hu.trans (hp.inuse pi hold)
    · simp [hu] at ho
  · rcases (h.shut pi).read with hr | hr
    · exact hr.trans (hp.writer s pi (h.parked s _ hs trivial).sleeps)
    · exact absurd hs (hr.2 s)
  · rcases (h.shut pi).write with hw | hw
    · exact hw.trans (hp.reader s pi (h.parked s _ hs trivial).sleeps)
    · exact absurd hs (hw.2 s)

theorem Ports.openPipe (hp : k.Ports) (pi : PipeId) : (k.openPipe pi).Ports := by
  have hself : (k.openPipe pi).pipes pi =
      { k.pipes pi with
        nread := 0, nwrite := 0, readopen := true, writeopen := true, inuse := true
        stream := k.nstream } := by
    simp [Kernel.openPipe, setPipe]
  have hother : ∀ pj, pj ≠ pi → (k.openPipe pi).pipes pj = k.pipes pj := by
    intro pj h
    simp [Kernel.openPipe, setPipe, h]
  refine ⟨hp.settled.of_procs rfl rfl, fun pj => ?_, fun s pj hs => ?_, fun s pj hs => ?_⟩
  all_goals by_cases h : pj = pi
  · subst h
    simp [hself]
  · rw [hother pj h]
    exact hp.inuse pj
  · subst h
    simp [hself]
  · rw [hother pj h]
    exact hp.writer s pj hs
  · subst h
    simp [hself]
  · rw [hother pj h]
    exact hp.reader s pj hs

/-- A call on a pipe, if the caller sleeps only where it may. -/
theorem Ports.io (hp : k.Ports) (hf : IoFrame k k' pi q) (ha : Acts k k')
    (hcurr : ∀ c, k'.SleepsOn k.curr c → c = .nread pi ∧ (k.pipes pi).writeopen = true ∨
      c = .nwrite pi ∧ (k.pipes pi).readopen = true) : k'.Ports := by
  have hflags := hf.flags
  have hback : ∀ s c, s ≠ k.curr → k'.SleepsOn s c → k.SleepsOn s c :=
    fun s c hs => (ha.others s hs).sleepsOn
  refine ⟨fun s x hx hs => ?_, fun pj => ?_, fun s pj hs => ?_, fun s pj hs => ?_⟩
  · by_cases hsc : s = k.curr
    · subst hsc
      rcases hcurr _ ⟨hs, rfl⟩ with ⟨h, _⟩ | ⟨h, _⟩ <;> rw [h] <;> trivial
    · have hs0 := hback s _ hsc ⟨hs, rfl⟩
      rw [← hs0.2]
      exact hp.settled s x (hf.inCall s hsc ▸ hx) hs0.1
  · obtain ⟨hr, hw, hu⟩ := hflags pj
    rw [hr, hw, hu]
    exact hp.inuse pj
  · rw [(hflags pj).1]
    by_cases hsc : s = k.curr
    · subst hsc
      rcases hcurr _ hs with ⟨h, _⟩ | ⟨h, ho⟩
      · cases h
      · cases Chan.nwrite.inj h
        exact ho
    · exact hp.writer s pj (hback s _ hsc hs)
  · rw [(hflags pj).2.1]
    by_cases hsc : s = k.curr
    · subst hsc
      rcases hcurr _ hs with ⟨h, ho⟩ | ⟨h, _⟩
      · cases Chan.nread.inj h
        exact ho
      · cases h
    · exact hp.reader s pj (hback s _ hsc hs)

theorem read_acts (hc : k.Ready k.curr) (pi : PipeId) (addr n : Word) :
    Acts k (ioTail (k.piperead pi addr n)) := by
  obtain ⟨ha, hcurr⟩ := piperead_acts hc pi addr n
  exact ha.sysTail hcurr _

theorem write_acts (hv : k.Vfork) (hc : k.Ready k.curr) (pi : PipeId)
    (addr n : Word) : Acts k (ioTail (k.pipewrite pi addr n)) := by
  obtain ⟨ha, hcurr⟩ := pipewrite_acts hv hc pi addr n
  exact ha.sysTail hcurr _

theorem Ports.act (hp : k.Ports) (hv : k.Vfork) (h : PipeAct P C k k') : k'.Ports := by
  cases h with
  | quiet h => exact hp.quiet h
  | opens _ h => exact (hp.openPipe _).quiet h
  | read hk _ _ =>
    refine hp.io (read_frame k _ _ _) (read_acts hk.ready _ _ _) fun c hs => .inl ?_
    obtain ⟨hc, _, hw⟩ := read_sleeps hs
    exact ⟨hc, hw⟩
  | write hk _ _ =>
    refine hp.io (write_frame hv hk.ready _ _ _) (write_acts hv hk.ready _ _ _) fun c hs => .inr ?_
    obtain ⟨hc, _, hr⟩ := write_sleeps hv hk.ready hs
    exact ⟨hc, hr⟩

end Kernel

end DmaCpu.Xv6
