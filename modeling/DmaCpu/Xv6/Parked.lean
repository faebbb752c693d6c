-- SUMMARY: Processes parked on a pipe, and results that wait to be used, while no byte moves.
import DmaCpu.Xv6.Vfork

/-!
# Parked processes

Most actions move no byte through a pipe. `Quiet` says what they can do to the
processes that are parked on one and to those that have not used the result of
their last pipe call yet: whoever stays parked finds its mailbox and memory as
they were, and whoever wakes finds the other end closed or was interrupted.
-/
namespace DmaCpu.Xv6

open Function

variable {k k' k'' : Kernel} {R : Slot → Prop} {s : Slot}

namespace Kernel

/-- The rings and the history of their bytes are unchanged. -/
structure SameBytes (k k' : Kernel) : Prop where
  ring : ∀ pi, (k'.pipes pi).ring = (k.pipes pi).ring
  moves : k'.moves = k.moves
  nstream : k'.nstream = k.nstream
  calls : k'.calls = k.calls
  ncalls : k'.ncalls = k.ncalls

/-- Where the result of the last pipe call of process `s` comes from. -/
inductive Due (P : Slot → Prop) (k k' : Kernel) (s : Slot) : Prop where
  | same (h : k.Ready s) (hr : k'.r0 (k'.img s) = k.r0 (k.img s))
      (hm : k'.mailof s = k.mailof s)
  | short {pi : PipeId} (h : k.SleepsOn s (.nwrite pi)) (hc : (k'.pipes pi).readopen = false)
      (hr : k'.r0 (k'.img s) = (k.mailof s).done)
      (hm : k'.mailof s = { k.mailof s with ret := (k.mailof s).done, done := 1 })
  | eof {pi : PipeId} (h : k.SleepsOn s (.nread pi)) (hc : (k'.pipes pi).writeopen = false)
  | interrupted (hP : P s) (hr : k'.r0 (k'.img s) = -1)

/-- A process that stays parked, as it was. -/
structure Stays (k k' : Kernel) (s : Slot) (c : Chan) : Prop where
  sleeps : k.SleepsOn s c
  img : k'.img s = k.img s
  mail : k'.mailof s = k.mailof s
  mem : k'.peek s = k.peek s
  inCall : k'.inCall s = k.inCall s

/-- A process with an unused result sleeps, if it does, on a pipe. -/
def Settled (k : Kernel) : Prop :=
  ∀ s x, k.inCall s = some x → (k.proc s).state = .sleeping → Chan.IsPipe (k.proc s).chan

structure Quiet (P : Slot → Prop) (k k' : Kernel) : Prop extends SameBytes k k' where
  inCall : ∀ s, k'.inCall s = k.inCall s ∨ k'.inCall s = none
  parked : ∀ s c, k'.SleepsOn s c → Chan.IsPipe c → Stays k k' s c
  due : ∀ s x, k'.inCall s = some x → k'.Ready s → Due P k k' s
  shut : ∀ pi, Shut k k' pi
  settled : k.Settled → k'.Settled

variable {P : Slot → Prop} {C : Kernel → Answer → Prop}

theorem SameBytes.trans (h : SameBytes k k') (h' : SameBytes k' k'') : SameBytes k k'' where
  ring pi := (h'.ring pi).trans (h.ring pi)
  moves := h'.moves.trans h.moves
  nstream := h'.nstream.trans h.nstream
  calls := h'.calls.trans h.calls
  ncalls := h'.ncalls.trans h.ncalls

theorem Wakes.sameBytes (h : Wakes R k k') : SameBytes k k' :=
  ⟨h.ring, h.moves, h.nstream, h.calls, h.ncalls⟩

theorem Stays.trans {c : Chan} (h : Stays k k' s c) (h' : Stays k' k'' s c) : Stays k k'' s c :=
  ⟨h.sleeps, h'.img.trans h.img, h'.mail.trans h.mail, h'.mem.trans h.mem,
    h'.inCall.trans h.inCall⟩

theorem Quiet.inCall_eq {x : Call} (h : Quiet P k k')
    (hx : k'.inCall s = some x) : k.inCall s = some x := by
  rcases h.inCall s with hs | hs
  · exact hs ▸ hx
  · simp [hs] at hx

theorem Quiet.trans (h : Quiet P k k') (h' : Quiet P k' k'') : Quiet P k k'' := by
  refine { h.toSameBytes.trans h'.toSameBytes with
    inCall := fun s => ?_, parked := fun s c hs hc => ?_, due := fun s x hx hr => ?_,
    shut := fun pi => ?_, settled := fun hset => h'.settled (h.settled hset) }
  · rcases h'.inCall s with hs | hs
    · exact hs ▸ h.inCall s
    · exact .inr hs
  · have hs' := h'.parked s c hs hc
    exact (h.parked s c hs'.sleeps hc).trans hs'
  · cases h'.due s x hx hr with
    | same hrdy hr0 hm =>
      cases h.due s x (h'.inCall_eq hx) hrdy with
      | same hrdy hr0' hm' => exact .same hrdy (hr0.trans hr0') (hm.trans hm')
      | short hs hc hr0' hm' =>
        exact .short hs ((h'.shut _).readopen hc) (hr0.trans hr0') (hm.trans hm')
      | eof hs hc => exact .eof hs ((h'.shut _).writeopen hc)
      | interrupted hP hr0' => exact .interrupted hP (hr0.trans hr0')
    | short hs hc hr0 hm =>
      have hst := h.parked s _ hs trivial
      exact .short hst.sleeps hc (hst.mail ▸ hr0) (hst.mail ▸ hm)
    | eof hs hc => exact .eof (h.parked s _ hs trivial).sleeps hc
    | interrupted hP hr0 => exact .interrupted hP hr0
  · exact (h.shut pi).trans (h'.shut pi) (fun s hs => (h'.parked s _ hs trivial).sleeps)
      fun s hs => (h'.parked s _ hs trivial).sleeps

theorem Settled.wakes (hset : k.Settled) (h : Wakes R k k') : k'.Settled := by
  intro s x hx hs
  have hs0 := (h.slot s).sleepsOn ⟨hs, rfl⟩
  have hpipe := hset s x (h.inCall ▸ hx) hs0.1
  rwa [hs0.2] at hpipe

theorem Settled.of_procs (hset : k.Settled) (hp : k'.proc = k.proc)
    (hin : k'.inCall = k.inCall) : k'.Settled := by
  intro s x hx hs
  rw [hp] at hs ⊢
  exact hset s x (hin ▸ hx) hs

/-- Only control changes. -/
theorem Quiet.of_face (h : { k'.face with ctl := k.ctl } = k.face) : Quiet P k k' := by
  have hplace : ∀ q, (k'.proc q).place = (k.proc q).place :=
    fun q => congrFun (congrArg Face.place h) q
  have himg : ∀ q, k'.img q = k.img q := fun q => (place_eq_iff.mp (hplace q)).2.2
  have hends : k'.face.ends = k.face.ends := by
    have := congrArg Face.ends h
    exact this
  have hmail : ∀ q, k'.mailof q = k.mailof q := fun q => by
    rw [mailof, himg]
    exact congrFun (congrArg Face.mail h) _
  refine ⟨⟨fun pi => congrFun (congrArg Face.ring h) pi, congrArg Face.moves h,
    congrArg Face.nstream h, congrArg Face.calls h, congrArg Face.ncalls h⟩,
    fun s => .inl (congrFun (congrArg Face.inCall h) s), fun s c hs _ => ?_, fun s x _ hr => ?_,
    Shut.of_ends hends, fun hset s x hx hs => ?_⟩
  · obtain ⟨hst, hch, _⟩ := place_eq_iff.mp (hplace s)
    refine ⟨⟨hst ▸ hs.1, hch ▸ hs.2⟩, himg s, hmail s, ?_, congrFun (congrArg Face.inCall h) s⟩
    funext a
    rw [peek, himg]
    exact congrFun (congrFun (congrArg Face.mem h) _) a
  · refine .same ?_ ?_ (hmail s)
    · simpa [Ready, (place_eq_iff.mp (hplace s)).1] using hr
    · rw [himg]
      exact congrFun (congrArg Face.r0 h) _
  · obtain ⟨hst, hch, _⟩ := place_eq_iff.mp (hplace s)
    have hin : k'.inCall = k.inCall := congrArg Face.inCall h
    rw [hch]
    exact hset s x (hin ▸ hx) (hst ▸ hs)

theorem Quiet.of_frame (h : k'.face = k.face) : Quiet P k k' := by
  have hctl : k'.ctl = k.ctl := congrArg Face.ctl h
  exact .of_face (by rw [← hctl]; exact h)

/-! ## Waking processes -/

/-- If anybody in the image of process `s` is woken, it is `s`. -/
def WokenAlone (k k' : Kernel) (s : Slot) : Prop :=
  ∀ t, k.img t = k.img s → Woken k k' t → t = s

theorem Vfork.wokenAlone (hv : k.Vfork) (h : Wakes R k k')
    (hR : ∀ c, R c → k.Live c ∧ ¬ k.IsSuspended c) (hl : k.Live s) (hu : ¬ k.IsSuspended s)
    (hRs : ¬ R s) : WokenAlone k k' s := by
  intro t ht hwt
  by_cases hsus : k.IsSuspended t
  · obtain ⟨c, hc⟩ := hsus
    have hRc : R c := (h.slot t).released hc fun hs => hwt.2 hs.1.1
    obtain ⟨hlc, huc⟩ := hR c hRc
    have hcs := hv.alone c s hlc hl ((hv.child t c hc).2.trans ht) huc hu
    exact absurd (hcs ▸ hRc) hRs
  · exact hv.alone t s (live_of_sleeping hwt.1) hl ht hsus hu

theorem WokenAlone.spared (ha : WokenAlone k k' s) (h : Wakes R k k')
    (hw : ¬ Woken k k' s) : SameImg k k' (k.img s) := by
  rcases h.image (k.img s) with hsame | ⟨t, ht, hwt⟩
  · exact hsame
  · exact absurd (ha t ht hwt ▸ hwt) hw

theorem not_isSuspended_of_isPipe {c : Chan} (hs : k.SleepsOn s c)
    (hc : Chan.IsPipe c) : ¬ k.IsSuspended s := by
  rintro ⟨d, hd⟩
  rw [← hs.2, hd.1.2] at hc
  exact hc

theorem SameImg.mailof (h : SameImg k k' (k.img s)) (hi : k'.img s = k.img s) :
    k'.mailof s = k.mailof s ∧ k'.peek s = k.peek s ∧ k'.r0 (k'.img s) = k.r0 (k.img s) := by
  refine ⟨?_, ?_, ?_⟩
  · rw [Kernel.mailof, hi, h.1, Kernel.mailof]
  · funext a
    rw [peek, hi, h.2.2, peek]
  · rw [hi, h.2.1]

theorem Wakes.stays {c : Chan} (h : Wakes R k k') (ha : WokenAlone k k' s)
    (hs : k'.SleepsOn s c) : Stays k k' s c := by
  have himg := (h.slot s).img
  obtain ⟨hm, hp, _⟩ := (ha.spared h fun hw => hw.2 hs.1).mailof himg
  exact ⟨(h.slot s).sleepsOn hs, himg, hm, hp, congrFun h.inCall s⟩

/-- A process that could run before has its result as before. -/
theorem Wakes.due_same (h : Wakes R k k') (ha : WokenAlone k k' s) (hr : k'.Ready s)
    (hw : ¬ Woken k k' s) : Due P k k' s := by
  have hready : k.Ready s := by
    cases h.slot s with
    | same hp => simpa [Ready, (place_eq_iff.mp hp).1] using hr
    | woken _ hsl _ hrun => exact absurd ⟨hsl, by simp [hrun]⟩ hw
    | freed _ _ hun => simp [Ready, hun] at hr
  obtain ⟨hm, _, hr0⟩ := (ha.spared h hw).mailof (h.slot s).img
  exact .same hready hr0 hm

theorem Eases.due {x : Call} (hset : k.Settled) (h : Eases R k k') (ha : WokenAlone k k' s)
    (hx : k'.inCall s = some x) (hr : k'.Ready s) : Due P k k' s := by
  by_cases hw : Woken k k' s
  · have hpipe := hset s x (h.inCall ▸ hx) hw.1
    have himg := (h.slot s).img
    generalize hch : (k.proc s).chan = c at hpipe
    cases c with
    | nread pi => exact .eof ⟨hw.1, hch⟩ (h.reader s pi ⟨hw.1, hch⟩ hw)
    | nwrite pi =>
      obtain ⟨hr0, hm⟩ := h.count s pi ⟨hw.1, hch⟩ hw ha
      refine .short ⟨hw.1, hch⟩ (h.writer s pi ⟨hw.1, hch⟩ hw) (himg ▸ hr0) ?_
      rw [mailof, himg, hm]
    | none => exact hpipe.elim
    | proc => exact hpipe.elim
    | ticks => exact hpipe.elim
    | selwaitInf => exact hpipe.elim
    | selwaitTo => exact hpipe.elim
  · exact h.due_same ha hr hw

/-- The images that matter: those of parked processes and of processes with an
    unused result. -/
def Watched (k : Kernel) (s : Slot) : Prop :=
  k.Ready s ∨ (k.proc s).state = .sleeping ∧ Chan.IsPipe (k.proc s).chan

theorem Watched.live (h : k.Watched s) : k.Live s := by
  rcases h with h | h
  · exact h.live
  · exact live_of_sleeping h.1

theorem Watched.not_isSuspended (h : k.Watched s) : ¬ k.IsSuspended s := by
  rcases h with h | ⟨hs, hc⟩
  · exact h.not_isSuspended
  · exact not_isSuspended_of_isPipe ⟨hs, rfl⟩ hc

theorem SlotEases.watched {x : Call} (h : SlotEases R k k' s) (hset : k.Settled)
    (hx : k.inCall s = some x) (hr : k'.Ready s) : k.Watched s := by
  cases h with
  | same hp => exact .inl (by simpa [Ready, (place_eq_iff.mp hp).1] using hr)
  | woken _ hsl => exact .inr ⟨hsl, hset s x hx hsl⟩
  | freed _ _ hun => simp [Ready, hun] at hr

theorem Eases.quiet_of (hset : k.Settled) (h : Eases R k k')
    (ha : ∀ s, k.Watched s → WokenAlone k k' s) : Quiet P k k' := by
  refine { h.sameBytes with
    inCall := fun s => .inl (congrFun h.inCall s)
    parked := fun s c hs hc => ?_
    due := fun s x hx hr => h.due hset (ha s ?_) hx hr
    shut := h.shut
    settled := fun hset => hset.wakes h.toWakes }
  · have hs0 := (h.slot s).sleepsOn hs
    exact h.stays (ha s (.inr ⟨hs0.1, hs0.2 ▸ hc⟩)) hs
  · exact (h.slot s).watched hset (h.inCall ▸ hx) hr

theorem Eases.quiet (hv : k.Vfork) (hset : k.Settled)
    (h : Eases (fun _ => False) k k') : Quiet P k k' :=
  h.quiet_of hset fun _ hs =>
    hv.wokenAlone h.toWakes (fun _ hf => hf.elim) hs.live hs.not_isSuspended id

theorem Ends.quiet {m : Kernel} {i : Slot} (h : Ends k i m k') (hv : k.Vfork) (hset : k.Settled)
    (hi : k.Live i) (hu : ¬ k.IsSuspended i) : Quiet P k k' := by
  have ha : ∀ s, s ≠ i → k.Watched s → WokenAlone k m s := by
    intro s hsi hs
    refine hv.wokenAlone h.eases.toWakes ?_ hs.live hs.not_isSuspended hsi
    rintro c rfl
    exact ⟨hi, hu⟩
  have hmail : k'.mail = m.mail := congrArg Face.mail h.rest
  have hmem : k'.mem = m.mem := congrArg Face.mem h.rest
  have hr0 : k'.r0 = m.r0 := congrArg Face.r0 h.rest
  have hin : k'.inCall = m.inCall := congrArg Face.inCall h.rest
  have hends : k'.face.ends = m.face.ends := by
    have := congrArg Face.ends h.rest
    exact this
  have hshut := Shut.of_ends hends
  have himg : ∀ s, s ≠ i → k'.img s = m.img s := fun s hs => congrArg Proc.img (h.others s hs)
  have hbytes : SameBytes m k' := ⟨fun pi => congrFun (congrArg Face.ring h.rest) pi,
    congrArg Face.moves h.rest, congrArg Face.nstream h.rest, congrArg Face.calls h.rest,
    congrArg Face.ncalls h.rest⟩
  refine { h.eases.sameBytes.trans hbytes with
    inCall := fun s => .inl ?_, parked := fun s c hs hc => ?_, due := fun s x hx hr => ?_,
    shut := fun pi => ?_, settled := fun hset s x hx hs => ?_ }
  · rw [hin, h.eases.inCall]
  · have hsi : s ≠ i := by
      rintro rfl
      exact h.dead (live_of_sleeping hs.1)
    have hsm := h.sleepsOn hs
    have hs0 := (h.eases.slot s).sleepsOn hsm
    obtain ⟨hsl, hi', hm', hp', hc'⟩ := h.eases.stays (ha s hsi (.inr ⟨hs0.1, hs0.2 ▸ hc⟩)) hsm
    refine ⟨hsl, (himg s hsi).trans hi', ?_, ?_, (congrFun hin s).trans hc'⟩
    · rw [← hm', mailof, himg s hsi, hmail, mailof]
    · rw [← hp']
      funext a
      rw [peek, himg s hsi, hmem, peek]
  · have hsi : s ≠ i := by
      rintro rfl
      exact h.dead hr.live
    have hmr : m.Ready s := by
      rwa [Ready, h.others s hsi] at hr
    have hmx : m.inCall s = some x := hin ▸ hx
    have hws := (h.eases.slot s).watched hset (h.eases.inCall ▸ hmx) hmr
    have hm : k'.mailof s = m.mailof s := by rw [mailof, himg s hsi, hmail, mailof]
    have hr' : k'.r0 (k'.img s) = m.r0 (m.img s) := by rw [himg s hsi, hr0]
    cases h.eases.due (P := P) hset (ha s hsi hws) hmx hmr with
    | same hk hr1 hm1 => exact .same hk (hr'.trans hr1) (hm.trans hm1)
    | short hs hc hr1 hm1 =>
      exact .short hs ((hshut _).readopen hc) (hr'.trans hr1) (hm.trans hm1)
    | eof hs hc => exact .eof hs ((hshut _).writeopen hc)
    | interrupted hP hr1 => exact .interrupted hP (hr'.trans hr1)
  · refine (h.eases.shut pi).trans (hshut pi) ?_ ?_ <;> exact fun s => h.sleepsOn
  · have hsm := h.sleepsOn ⟨hs, rfl⟩
    exact hsm.2 ▸ hset.wakes h.eases.toWakes s x (hin ▸ hx) hsm.1

/-- A wake-up for a reason that is not a pipe. -/
theorem Wakes.quiet {i : Slot} (hv : k.Vfork) (hset : k.Settled) (h : Wakes (fun _ => False) k k')
    (hends : k'.face.ends = k.face.ends) (hq : ∀ q, q ≠ i → (k'.proc q).place = (k.proc q).place)
    (hi : ∀ x, k.inCall i = some x → Due P k k' i) : Quiet P k k' := by
  have ha : ∀ s, k.Watched s → WokenAlone k k' s := fun s hs =>
    hv.wokenAlone h (fun _ hf => hf.elim) hs.live hs.not_isSuspended id
  refine { h.sameBytes with
    inCall := fun s => .inl (congrFun h.inCall s)
    parked := fun s c hs hc => ?_
    due := fun s x hx hr => ?_
    shut := Shut.of_ends hends
    settled := fun hset => hset.wakes h }
  · have hs0 := (h.slot s).sleepsOn hs
    exact h.stays (ha s (.inr ⟨hs0.1, hs0.2 ▸ hc⟩)) hs
  · by_cases hw : Woken k k' s
    · have hsi : s = i := by
        by_contra hne
        exact hw.2 ((place_eq_iff.mp (hq s hne)).1.trans hw.1)
      subst hsi
      exact hi x (h.inCall ▸ hx)
    · exact h.due_same (ha s ((h.slot s).watched hset (h.inCall ▸ hx) hr)) hr hw

theorem Bg.quiet (h : Bg True P k k') (hv : k.Vfork) (hset : k.Settled) : Quiet P k k' := by
  -- a process with an unused result does not sleep for a tick or in `select`
  have hoff : ∀ {i c x}, k.SleepsOn i c → ¬ Chan.IsPipe c → k.inCall i = some x →
      Due P k k' i := by
    intro i c x hs hc hx
    exact absurd (hs.2 ▸ hset i x hx hs.1) hc
  cases h with
  | frame h => exact .of_frame h.face
  | @wake i h =>
    refine (Wakes.wake (h.elim And.left And.left) (not_suspended_of_either h (by simp) (by simp))).quiet
      (i := i) hv hset rfl (fun q hq => by simp [Kernel.wake, setProc, hq]) fun x hx => ?_
    exact h.elim (hoff · (by simp [Chan.IsPipe]) hx) (hoff · (by simp [Chan.IsPipe]) hx)
  | @select i v h =>
    refine (Wakes.kcomplete (h.elim And.left And.left)
      (not_suspended_of_either h (by simp) (by simp))).quiet (i := i) hv hset rfl
      (fun q => kcomplete_others _) fun x hx => ?_
    exact h.elim (hoff · (by simp [Chan.IsPipe]) hx) (hoff · (by simp [Chan.IsPipe]) hx)
  | @interrupt i h hs =>
    obtain ⟨hns, hP⟩ := hs trivial
    refine (Wakes.kcomplete h fun c hc => hns ⟨c, hc⟩).quiet (i := i) hv hset rfl
      (fun q => kcomplete_others _) fun x _ => .interrupted hP ?_
    simp [Kernel.kcomplete, Kernel.wake, setret, setProc, img]
  | terminate status h hs =>
    obtain ⟨m, hm⟩ := terminate_ends k _ status
    exact hm.quiet hv hset (live_of_sleeping h) (hs trivial)

/-! ## The current process acts -/

/-- Process `i` acts, perhaps with a new process in another slot. -/
theorem Quiet.of_slots {i : Slot} (hin : k'.inCall i = k.inCall i ∨ k'.inCall i = none)
    (hrun : ∀ x, k'.inCall i = some x → (k'.proc i).state ≠ .sleeping)
    (hself : ∀ c, Chan.IsPipe c → ¬ k'.SleepsOn i c)
    (hdue : ∀ x, k'.inCall i = some x → k'.Ready i → Due P k k' i) (hothers : ∀ q, q ≠ i →
      (k'.proc q).place = (k.proc q).place ∧ k'.inCall q = k.inCall q ∧
        (k.Watched q → SameImg k k' (k.img q)) ∨
      (k'.proc q).state ≠ .sleeping ∧ k'.inCall q = none) (hbytes : SameBytes k k')
    (hends : k'.face.ends = k.face.ends) : Quiet P k k' := by
  refine { hbytes with
    inCall := fun s => ?_, parked := fun s c hs hpipe => ?_, due := fun s x hx hr => ?_,
    shut := Shut.of_ends hends, settled := fun hset s x hx hs => ?_ }
  · by_cases hs : s = i
    · exact hs ▸ hin
    · exact (hothers s hs).imp (·.2.1) And.right
  · have hne : s ≠ i := by
      rintro rfl
      exact hself c hpipe hs
    rcases hothers s hne with ⟨hp, hx, himg⟩ | ⟨hns, _⟩
    · obtain ⟨hst, hch, hi⟩ := place_eq_iff.mp hp
      have hs0 : k.SleepsOn s c := ⟨hst ▸ hs.1, hch ▸ hs.2⟩
      obtain ⟨hm, hpk, _⟩ := (himg (.inr ⟨hs0.1, hs0.2 ▸ hpipe⟩)).mailof hi
      exact ⟨hs0, hi, hm, hpk, hx⟩
    · exact absurd hs.1 hns
  · by_cases hs : s = i
    · subst hs
      exact hdue x hx hr
    · rcases hothers s hs with ⟨hp, _, himg⟩ | ⟨_, hnone⟩
      · obtain ⟨hst, _, hi⟩ := place_eq_iff.mp hp
        have hr0 : k.Ready s := by simpa [Ready, hst] using hr
        obtain ⟨hm, _, hr'⟩ := (himg (.inl hr0)).mailof hi
        exact .same hr0 hr' hm
      · simp [hnone] at hx
  · by_cases hsi : s = i
    · subst hsi
      exact absurd hs (hrun x hx)
    · rcases hothers s hsi with ⟨hp, hin, _⟩ | ⟨hns, _⟩
      · obtain ⟨hst, hch, _⟩ := place_eq_iff.mp hp
        rw [hch]
        exact hset s x (hin ▸ hx) (hst ▸ hs)
      · exact absurd hs hns

/-- The image of the current process is nobody else's. -/
theorem Vfork.own_img (hv : k.Vfork) (hc : k.Ready k.curr) (hs : k.Watched s)
    (hne : s ≠ k.curr) : k.img s ≠ k.img k.curr := fun he =>
  hne (hv.alone s k.curr hs.live hc.live he hs.not_isSuspended hc.not_isSuspended)

/-- What the current process does in its own image. -/
theorem Quiet.self (hv : k.Vfork) (hc : k.Ready k.curr) (hin : k'.inCall k.curr = none)
    (hothers : ∀ q, q ≠ k.curr →
      (k'.proc q).place = (k.proc q).place ∧ k'.inCall q = k.inCall q ∨
      (k'.proc q).state ≠ .sleeping ∧ k'.inCall q = none)
    (hself : ∀ c, Chan.IsPipe c → ¬ k'.SleepsOn k.curr c)
    (himg : ∀ j, j ≠ k.img k.curr → SameImg k k' j) (hbytes : SameBytes k k')
    (hends : k'.face.ends = k.face.ends) : Quiet P k k' := by
  refine .of_slots (.inr hin) (by simp [hin]) hself (by simp [hin]) (fun q hq => ?_) hbytes hends
  rcases hothers q hq with ⟨hp, hx⟩ | h
  · exact .inl ⟨hp, hx, fun hw => himg _ (hv.own_img hc hw hq)⟩
  · exact .inr h

/-- What the tail of a system call leaves alone. -/
structure TailFrame (k k' : Kernel) : Prop extends SameBytes k k' where
  proc : ∀ q, q ≠ k.curr → k'.proc q = k.proc q
  inCall : k'.inCall = k.inCall
  ends : k'.face.ends = k.face.ends
  image : ∀ j, j ≠ k.img k.curr → SameImg k k' j

theorem sysTail_frame (k : Kernel) (o : Outcome) : TailFrame k (k.sysTail o) := by
  have hset : ∀ v j, j ≠ k.img k.curr → SameImg k (k.setret k.curr v) j := by
    intro v j hj
    simp [SameImg, setret, hj]
  cases o with
  | ret v =>
    refine ⟨⟨fun _ => rfl, rfl, rfl, rfl, rfl⟩, fun q hq => ?_, rfl, rfl, hset v⟩
    simp [sysTail, setProc, hq, setret]
  | resume =>
    exact ⟨⟨fun _ => rfl, rfl, rfl, rfl, rfl⟩, fun _ _ => rfl, rfl, rfl, fun _ _ => ⟨rfl, rfl, rfl⟩⟩
  | block v =>
    rw [sysTail]
    split
    · exact ⟨⟨fun _ => rfl, rfl, rfl, rfl, rfl⟩, fun _ _ => rfl, rfl, rfl, hset v⟩
    · exact ⟨⟨fun _ => rfl, rfl, rfl, rfl, rfl⟩, fun _ _ => rfl, rfl, rfl,
        fun _ _ => ⟨rfl, rfl, rfl⟩⟩

theorem sysTail_block_proc (k : Kernel) (v : Word) : (k.sysTail (.block v)).proc = k.proc := by
  rw [sysTail]
  split <;> rfl

/-- A successful `exec` touches the old image of the process, its new one and
    those of the parents it releases, which are in the old one. -/
theorem sysExec_quiet {m : Mail} {a : Answer} (hv : k.Vfork) (hset : k.Settled) (hk : k.AtCall)
    (h : (k.place a.program).2.isSome) : Quiet P k (k.sysExec m a).1 := by
  obtain ⟨k1, hbare, heq⟩ := sysExec_eq_of_some (m := m) h
  have hface : k1.face = k.face := face_eq_of_bare hbare
  have hrel := vforkRelease_eases (k1.enterImage k.curr a) k.curr
  generalize hk2 : k1.enterImage k.curr a = k2 at heq hrel
  generalize k2.vforkRelease k.curr = k3 at heq hrel
  generalize (k.sysExec m a).1 = k' at heq ⊢
  have hn1 : k1.nimg = k.nimg := congrArg Face.nimg hface
  have hplace1 : ∀ q, (k1.proc q).place = (k.proc q).place :=
    fun q => congrFun (congrArg Face.place hface) q
  have hplace2 : ∀ q, q ≠ k.curr → (k2.proc q).place = (k.proc q).place := by
    intro q hq
    rw [← hplace1, ← hk2]
    simp [enterImage, setProc, hq]
  have hstate : (k2.proc k.curr).state = (k.proc k.curr).state := by
    rw [← (place_eq_iff.mp (hplace1 k.curr)).1, ← hk2]
    simp [enterImage, setProc]
  have hready : k2.Ready k.curr := by
    rw [Ready, hstate]
    exact hk.ready
  have hin2 : k2.inCall = k.inCall := by
    rw [← hk2]
    exact congrArg Face.inCall hface
  have hset2 : k2.Settled := by
    intro s x hx hs
    have hne : s ≠ k.curr := by
      rintro rfl
      simp [hin2, hk.inCall] at hx
    obtain ⟨hst, hch, _⟩ := place_eq_iff.mp (hplace2 s hne)
    rw [hch]
    exact hset s x (hin2 ▸ hx) (hst ▸ hs)
  have h12 : Quiet P k k2 := by
    have hbytes : SameBytes k k2 := by
      rw [← hk2]
      exact ⟨fun pi => congrFun (congrArg Face.ring hface) pi, congrArg Face.moves hface,
        congrArg Face.nstream hface, congrArg Face.calls hface, congrArg Face.ncalls hface⟩
    have hends : k2.face.ends = k.face.ends := by
      have := congrArg Face.ends hface
      rw [← hk2]
      exact this
    refine .of_slots (i := k.curr) (.inl (congrFun hin2 _)) ?_ ?_ ?_ (fun q hq => .inl ⟨hplace2 q hq,
      congrFun hin2 q, fun hw => ?_⟩) hbytes hends
    · simp [hin2, hk.inCall]
    · rintro c _ ⟨hs, _⟩
      rcases hready with hr | hr <;> simp [hr] at hs
    · simp [hin2, hk.inCall]
    · -- the fresh image is not that of a live process
      have hj : k.img q ≠ k1.nimg := by
        rw [hn1]
        exact Nat.ne_of_lt (hv.fresh q hw.live)
      rw [← hk2]
      refine ⟨?_, ?_, ?_⟩
      · simp only [enterImage, setProc, update_of_ne hj]
        exact congrFun (congrArg Face.mail hface) _
      · simp only [enterImage, setProc, update_of_ne hj]
        exact congrFun (congrArg Face.r0 hface) _
      · simp only [enterImage, setProc, update_of_ne hj]
        exact congrFun (congrArg Face.mem hface) _
  have h23 : Quiet P k2 k3 := by
    refine hrel.quiet_of hset2 fun s hs t ht hwt => ?_
    have htc : t ≠ k.curr := by
      rintro rfl
      rcases hready with hr | hr <;> simp [hr, Woken] at hwt
    obtain ⟨htst, htch, hti⟩ := place_eq_iff.mp (hplace2 t htc)
    by_cases hsc : s = k.curr
    · -- nobody else is in the new image
      exfalso
      subst hsc
      have himg2 : k2.img k.curr = k.nimg := by
        rw [← hk2, ← hn1]
        simp [enterImage, setProc, img]
      have htl : k.img t < k.nimg := hv.fresh t (live_of_sleeping (htst ▸ hwt.1))
      have : k.img t = k.nimg := hti.symm.trans (ht.trans himg2)
      exact Nat.lt_irrefl _ (this ▸ htl)
    · obtain ⟨hst, hch, hsi⟩ := place_eq_iff.mp (hplace2 s hsc)
      have hsw : k.Watched s := by
        rwa [Watched, Ready, hst, hch] at hs
      have hti' : k.img t = k.img s := hti.symm.trans (ht.trans hsi)
      by_cases hsus : k.IsSuspended t
      · exfalso
        obtain ⟨c, ⟨hsl, hc⟩, hne⟩ := hsus
        have hs2 : k2.Suspended t c := ⟨⟨htst.trans hsl, htch.trans hc⟩, hne⟩
        have hcc : c = k.curr := (hrel.slot t).released hs2 fun h3 => hwt.2 h3.1.1
        subst hcc
        have := (hv.child t k.curr ⟨⟨hsl, hc⟩, hne⟩).2
        exact hv.own_img hk.ready hsw hsc (hti'.symm.trans this.symm)
      · exact hv.alone t s (live_of_sleeping (htst ▸ hwt.1)) hsw.live hti' hsus hsw.not_isSuspended
  have h34 : Quiet P k3 k' := by
    have hin3 : k3.inCall k.curr = none := by rw [hrel.inCall, hin2, hk.inCall]
    rw [heq]
    refine .of_slots (i := k.curr) (.inl rfl) ?_ ?_ ?_ (fun q hq => .inl ⟨?_, rfl, fun _ =>
      ⟨rfl, rfl, rfl⟩⟩) ⟨fun _ => rfl, rfl, rfl, rfl, rfl⟩ rfl
    · simp [markEnd, setProc]
    · rintro c _ ⟨hs, _⟩
      simp [markEnd, setProc] at hs
    · intro x hx
      simp [markEnd, setProc, hin3] at hx
    · simp [markEnd, setProc, hq]
  exact (h12.trans h23).trans h34

theorem forkInto_quiet {c : Slot} (hv : k.Vfork) (hk : k.AtCall) (hu : (k.proc c).state = .unused) :
    Quiet P k ((k.forkInto c).sysTail (.block 0)) := by
  have hne : c ≠ k.curr := by
    rintro rfl
    exact hk.ready.live.1 hu
  have htail := sysTail_frame (k.forkInto c) (.block 0)
  have hproc := sysTail_block_proc (k.forkInto c) 0
  have himg : (k.forkInto c).img (k.forkInto c).curr = k.img k.curr := by
    simp [forkInto, setProc, img]
  generalize (k.forkInto c).sysTail (.block 0) = k' at htail hproc ⊢
  have hin : k'.inCall = update k.inCall c none := htail.inCall
  refine .self hv hk.ready ?_ (fun q hq => ?_) ?_ ?_ ?_ htail.ends
  · rw [hin, update_of_ne hne.symm]
    exact hk.inCall
  · rw [hproc, hin]
    by_cases hqc : q = c
    · subst hqc
      simp [forkInto, setProc, hq]
    · simp [forkInto, setProc, hq, hqc]
  · intro ch hch hs
    rw [SleepsOn, hproc] at hs
    have : (((k.forkInto c).proc k.curr).chan) = .proc c := by simp [forkInto, setProc]
    rw [← hs.2, this] at hch
    exact hch
  · intro j hj
    rw [← himg] at hj
    exact htail.image j hj
  · exact ⟨htail.ring, htail.moves, htail.nstream, htail.calls, htail.ncalls⟩

/-- What an action means for the pipes: nothing, a fresh pipe, a read or a
    write. -/
inductive PipeAct (P : Slot → Prop) (C : Kernel → Answer → Prop) (k : Kernel) : Kernel → Prop where
  | quiet {k' : Kernel} (h : Quiet P k k') : PipeAct P C k k'
  | opens {pi : PipeId} {k' : Kernel} (hu : (k.pipes pi).inuse = false)
      (h : Quiet P (k.openPipe pi) k') : PipeAct P C k k'
  | read {a : Answer} {pi : PipeId} (hk : k.AtCall) (hC : C k a) (h : k.Reads pi) :
      PipeAct P C k (ioTail (k.piperead pi (k.mailof k.curr).a1 (k.mailof k.curr).a2))
  | write {a : Answer} {pi : PipeId} (hk : k.AtCall) (hC : C k a) (h : k.Writes pi) :
      PipeAct P C k (ioTail (k.pipewrite pi (k.mailof k.curr).a1 (k.mailof k.curr).a2))

theorem setMem_quiet (hv : k.Vfork) (hk : k.AtCall) (m : Word → Byte) :
    Quiet P k (k.setMem k.curr m) := by
  refine .self hv hk.ready hk.inCall (fun q _ => .inl ⟨rfl, rfl⟩) ?_ ?_
    ⟨fun _ => rfl, rfl, rfl, rfl, rfl⟩ rfl
  · rintro c _ ⟨hs, _⟩
    have hs' : (k.proc k.curr).state = .sleeping := hs
    rcases hk.ready with hr | hr <;> simp [hr] at hs'
  · intro j hj
    simp [SameImg, setMem, hj]

theorem kfsPipe_act (hv : k.Vfork) (hset : k.Settled) (hk : k.AtCall)
    (fdarray : Word) : PipeAct P C k (k.kfsPipe fdarray).1 := by
  rcases kfsPipe_cases (R := fun _ => False) k fdarray with h | ⟨pi, m, hu, h⟩
  · exact .quiet (h.quiet hv hset)
  · have hv1 : (k.openPipe pi).Vfork := hv.of_procs rfl rfl
    have hv2 : ((k.openPipe pi).setMem k.curr m).Vfork := hv.of_procs rfl rfl
    have hk1 : (k.openPipe pi).AtCall := ⟨hk.ready, hk.inCall⟩
    have hset2 : ((k.openPipe pi).setMem k.curr m).Settled := hset.of_procs rfl rfl
    exact .opens hu ((setMem_quiet hv1 hk1 m).trans (h.quiet hv2 hset2))

theorem tail_quiet {k1 : Kernel} (hv : k.Vfork) (hk : k.AtCall) (o : Outcome)
    (hk1 : k1.curr = k.curr) (hp : ∀ q, q ≠ k.curr → k1.proc q = k.proc q)
    (hi : k1.img k.curr = k.img k.curr) (hin : k1.inCall = k.inCall) (himg : ∀ j, SameImg k k1 j)
    (hb : SameBytes k k1) (he : k1.face.ends = k.face.ends)
    (hself : ∀ c, Chan.IsPipe c → ¬ (k1.sysTail o).SleepsOn k.curr c) :
    Quiet P k (k1.sysTail o) := by
  have ht := sysTail_frame k1 o
  refine .self hv hk.ready ?_ (fun q hq => .inl ⟨?_, ?_⟩) (hk1 ▸ hself) (fun j hj => ?_)
    (hb.trans ht.toSameBytes) (ht.ends.trans he)
  · rw [ht.inCall, hin, hk.inCall]
  · rw [ht.proc q (hk1 ▸ hq), hp q hq]
  · rw [ht.inCall, hin]
  · refine (himg j).trans (ht.image j ?_)
    rwa [hk1, hi]

theorem Fg.pipeAct (h : Fg C k k') (hk : k.AtCall) (hv : k.Vfork)
    (hset : k.Settled) : PipeAct P C k k' := by
  have hbytes : SameBytes k k := ⟨fun _ => rfl, rfl, rfl, rfl, rfl⟩
  have hsame : ∀ j, SameImg k k j := fun _ => ⟨rfl, rfl, rfl⟩
  cases h with
  | own m => exact .quiet (setMem_quiet hv hk m)
  | ret v =>
    refine .quiet (tail_quiet hv hk _ rfl (fun _ _ => rfl) rfl rfl hsame hbytes rfl ?_)
    rintro c _ ⟨hs, _⟩
    simp [sysTail, setProc, setret] at hs
  | @sleep c v hc =>
    refine .quiet (tail_quiet hv hk _ rfl (fun q hq => ?_) ?_ rfl (fun _ => ⟨rfl, rfl, rfl⟩)
      ⟨fun _ => rfl, rfl, rfl, rfl, rfl⟩ rfl ?_)
    · simp [Kernel.sleep, setProc, hq]
    · simp [Kernel.sleep, setProc, img]
    · rintro d hd ⟨_, hch⟩
      rw [sysTail_block_proc] at hch
      simp only [Kernel.sleep, setProc, update_self] at hch
      rw [← hch] at hd
      rcases hc with rfl | rfl | rfl | rfl <;> exact hd
  | reap hz _ => exact .quiet (Eases.quiet hv hset (.freed hz rfl rfl))
  | resume v =>
    refine .quiet (.self hv hk.ready hk.inCall (fun q hq => .inl ⟨?_, rfl⟩) ?_ (fun j hj => ?_)
      ⟨fun _ => rfl, rfl, rfl, rfl, rfl⟩ rfl)
    · simp [setProc, hq]
    · rintro c _ ⟨hs, _⟩
      simp [setProc] at hs
    · simp [SameImg, setProc, hj]
  | @fork c hu =>
    have hf := copied_face k c
    have hv' := (hv.of_places (fun q => congrFun (congrArg Face.place hf) q) (.of_face hf)).1
    have hcopy : Quiet P k (k.copied c) := .of_frame hf
    exact .quiet (hcopy.trans (forkInto_quiet hv' (hk.of_face hf) (copied_unused hu)))
  | exec _ _ hp => exact .quiet (sysExec_quiet hv hset hk hp)
  | place => exact .quiet (.of_frame (place_face k _))
  | sbrk n =>
    obtain ⟨m, hm⟩ := ksbrk_face k n
    exact .quiet ((setMem_quiet hv hk m).trans (.of_frame hm))
  | close fd => exact .quiet ((kfsClose_run trivial k fd).eases.quiet hv hset)
  | dup fd => exact .quiet (.of_frame (kfsDup_run k fd).face)
  | «open» => exact .quiet ((kfsOpen_run trivial trivial k _).eases.quiet hv hset)
  | pipe fdarray => exact kfsPipe_act hv hset hk fdarray
  | read hC h => exact .read hk hC h
  | write hC h => exact .write hk hC h

theorem Atom.pipeAct (h : Atom True P C k k') (hv : k.Vfork) (hset : k.Settled) : PipeAct P C k k' := by
  have hawake : ∀ k : Kernel, k.Ready k.curr → ∀ c, Chan.IsPipe c → ¬ k.SleepsOn k.curr c := by
    rintro k hr c _ ⟨hs, _⟩
    rcases hr with hr | hr <;> simp [hr] at hs
  cases h with
  | bg h => exact .quiet (h.quiet hv hset)
  | fg hk h => exact h.pipeAct hk hv hset
  | user mem r0 hk =>
    refine .quiet (.self hv hk ?_ (fun q hq => .inl ⟨rfl, ?_⟩) (hawake k hk) (fun j hj => ?_)
      ⟨fun _ => rfl, rfl, rfl, rfl, rfl⟩ rfl)
    · simp [runUser]
    · simp [runUser, hq]
    · simp [SameImg, runUser, hj]
  | mail m hk =>
    refine .quiet (.self hv hk ?_ (fun q hq => .inl ⟨rfl, ?_⟩) (hawake k hk) (fun j hj => ?_)
      ⟨fun _ => rfl, rfl, rfl, rfl, rfl⟩ rfl)
    · simp [fillMail]
    · simp [fillMail, hq]
    · simp [SameImg, fillMail, setMail, hj]
  | start => exact .quiet (.of_frame (kfsStart_face k))
  | turn h => exact .quiet (.of_face h)
  | yield hk h =>
    subst h
    refine .quiet (.of_slots (i := k.curr) (.inl rfl) (by simp [setProc]) ?_
      (fun x _ _ => .same (.inr hk) ?_ ?_)
      (fun q hq => .inl ⟨?_, rfl, fun _ => ⟨rfl, rfl, rfl⟩⟩)
      ⟨fun _ => rfl, rfl, rfl, rfl, rfl⟩ rfl)
    · rintro c _ ⟨hs, _⟩
      simp [setProc] at hs
    · simp [setProc, img]
    · simp [setProc, mailof, img]
    · simp [setProc, hq]
  | die status hk =>
    obtain ⟨m, hm⟩ := terminate_ends k k.curr status
    have hq := hm.quiet (P := P) hv hset hk.live hk.not_isSuspended
    generalize k.terminate k.curr status = k1 at hq
    exact .quiet (hq.trans (.of_face rfl))

end Kernel

end DmaCpu.Xv6
