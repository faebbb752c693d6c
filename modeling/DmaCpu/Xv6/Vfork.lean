-- SUMMARY: At most one process runs in an image: the vfork invariant.
import DmaCpu.Xv6.Boot
import DmaCpu.Xv6.PipeLoops

/-!
# Vfork

A vfork child runs in its parent's image while the parent is suspended. The
invariant says that the suspended processes of an image form a chain that ends
in the one process of the image that is not suspended.
-/
namespace DmaCpu.Xv6

variable {k k' m : Kernel} {i c q : Slot} {R : Slot → Prop}

namespace Kernel

structure Vfork (k : Kernel) : Prop where
  fresh : ∀ i, k.Live i → k.img i < k.nimg
  child : ∀ q c, k.Suspended q c → k.Live c ∧ k.img c = k.img q
  oneParent : ∀ q q' c, k.Suspended q c → k.Suspended q' c → q = q'
  alone : ∀ s t, k.Live s → k.Live t → k.img s = k.img t →
    ¬ k.IsSuspended s → ¬ k.IsSuspended t → s = t

theorem Suspended.live (h : k.Suspended q c) : k.Live q :=
  live_of_sleeping h.1.1

/-- A suspended process that is no longer suspended was released. -/
theorem SlotEases.released (h : SlotEases R k k' q) (hs : k.Suspended q c)
    (hn : ¬ k'.Suspended q c) : R c := by
  cases h with
  | same h =>
    obtain ⟨hst, hch, _⟩ := place_eq_iff.mp h
    exact absurd ⟨⟨hst.trans hs.1.1, hch.trans hs.1.2⟩, hs.2⟩ hn
  | woken _ _ hR _ => exact hR c hs
  | freed _ hz _ => exact absurd hs.1.1 (by simp [hz])

/-! ## The current process acts, ends, enters a new image, or forks -/

/-- No image is made, and no process execs or terminates. -/
def SameEnds (k k' : Kernel) : Prop := k'.nimg = k.nimg ∧ k'.ended = k.ended

theorem SameEnds.refl (k : Kernel) : SameEnds k k := ⟨rfl, rfl⟩

theorem SameEnds.trans {k'' : Kernel} (h : SameEnds k k') (h' : SameEnds k' k'') :
    SameEnds k k'' :=
  ⟨h'.1.trans h.1, h'.2.trans h.2⟩

theorem SameEnds.of_face (h : k'.face = k.face) : SameEnds k k' :=
  ⟨congrArg Face.nimg h, congrArg Face.ended h⟩

/-- The current process does something for itself; it stays in its image and is
    not suspended afterwards. -/
structure Acts (k k' : Kernel) : Prop where
  others : ∀ q, q ≠ k.curr → SlotEases (fun _ => False) k k' q
  img : k'.img k.curr = k.img k.curr
  live : k'.Live k.curr
  free : ¬ k'.IsSuspended k.curr
  ends : SameEnds k k'

/-- The invariant depends only on who lives where and who is suspended. -/
theorem Vfork.congr (hv : k.Vfork) (himg : ∀ q, k'.img q = k.img q)
    (hlive : ∀ q, k'.Live q ↔ k.Live q) (hsus : ∀ q c, k'.Suspended q c ↔ k.Suspended q c)
    (hn : k'.nimg = k.nimg) : k'.Vfork := by
  constructor
  · intro i hi
    rw [himg, hn]
    exact hv.fresh i ((hlive i).mp hi)
  · intro q c hs
    rw [hlive, himg, himg]
    exact hv.child q c ((hsus q c).mp hs)
  · intro q q' c hs hs'
    exact hv.oneParent q q' c ((hsus q c).mp hs) ((hsus q' c).mp hs')
  · intro s t hs ht heq hfs hft
    rw [himg, himg] at heq
    simp only [IsSuspended, hsus] at hfs hft
    exact hv.alone s t ((hlive s).mp hs) ((hlive t).mp ht) heq hfs hft

theorem Vfork.of_procs (hv : k.Vfork) (hp : k'.proc = k.proc)
    (hn : k'.nimg = k.nimg) : k'.Vfork := by
  refine hv.congr (fun q => ?_) (fun q => ?_) (fun q c => ?_) hn
  · rw [img, hp, img]
  · rw [Live, hp, Live]
  · rw [Suspended, SleepsOn, hp, Suspended, SleepsOn]

theorem SlotEases.suspended_iff
    (h : SlotEases (fun _ => False) k k' q) : k'.Suspended q c ↔ k.Suspended q c := by
  refine ⟨h.suspended, fun hs => ?_⟩
  by_contra hn
  exact h.released hs hn

theorem Vfork.acts (hv : k.Vfork) (hc : k.Ready k.curr) (h : Acts k k') : k'.Vfork := by
  refine hv.congr (fun q => ?_) (fun q => ?_) (fun q c => ?_) h.ends.1
  all_goals by_cases hq : q = k.curr
  · rw [hq, h.img]
  · exact (h.others q hq).img
  · rw [hq]
    exact ⟨fun _ => hc.live, fun _ => h.live⟩
  · exact (h.others q hq).live_iff
  · subst hq
    exact ⟨fun hs => absurd ⟨c, hs⟩ h.free, fun hs => absurd ⟨c, hs⟩ hc.not_isSuspended⟩
  · exact (h.others q hq).suspended_iff

/-- Waking unsuspended sleepers keeps the invariant. -/
theorem Vfork.wakes (hv : k.Vfork) (h : Wakes (fun _ => False) k k') : k'.Vfork :=
  hv.congr (fun q => (h.slot q).img) (fun q => (h.slot q).live_iff)
    (fun q _ => (h.slot q).suspended_iff) h.nimg

/-- Process `i` leaves its image, by termination or by `exec`, and whoever was
    suspended on it is released. -/
structure Leaves (k : Kernel) (i : Slot) (k' : Kernel) : Prop where
  others : ∀ q, q ≠ i → SlotEases (· = i) k k' q
  alone : ∀ q, ¬ k'.SleepsOn q (.proc i)
  gone : k'.Live i → k'.img i = k.nimg
  free : ¬ k'.IsSuspended i
  ended : k'.ended = Function.update k.ended i (k.ended i + 1)
  nimg : k.nimg ≤ k'.nimg
  fresh : k'.Live i → k'.img i < k'.nimg

theorem Leaves.suspended_iff (h : Leaves k i k')
    (hi : ¬ k.IsSuspended i) : k'.Suspended q c ↔ k.Suspended q c ∧ c ≠ i := by
  by_cases hq : q = i
  · subst hq
    exact ⟨fun hs => absurd ⟨c, hs⟩ h.free, fun hs => absurd ⟨c, hs.1⟩ hi⟩
  · constructor
    · intro hs
      refine ⟨(h.others q hq).suspended hs, ?_⟩
      rintro rfl
      exact h.alone q hs.1
    · rintro ⟨hs, hci⟩
      by_contra hn
      exact hci ((h.others q hq).released hs hn)

theorem Vfork.leaves (hv : k.Vfork) (hi : k.Live i) (hfree : ¬ k.IsSuspended i)
    (h : Leaves k i k') : k'.Vfork := by
  have hsus : ∀ q c, k'.Suspended q c ↔ k.Suspended q c ∧ c ≠ i :=
    fun q c => h.suspended_iff hfree
  constructor
  · intro q hq
    by_cases hqi : q = i
    · subst hqi
      exact h.fresh hq
    · rw [(h.others q hqi).img]
      exact Nat.lt_of_lt_of_le (hv.fresh q ((h.others q hqi).live_iff.mp hq)) h.nimg
  · intro q c hs
    obtain ⟨hs, hci⟩ := (hsus q c).mp hs
    have hqi : q ≠ i := by
      rintro rfl
      exact hfree ⟨c, hs⟩
    rw [(h.others c hci).live_iff, (h.others c hci).img, (h.others q hqi).img]
    exact hv.child q c hs
  · intro q q' c hs hs'
    exact hv.oneParent q q' c ((hsus q c).mp hs).1 ((hsus q' c).mp hs').1
  · -- a process that shares an image with another unsuspended one was released,
    -- and so it was suspended on `i`, which has left the image
    have hother : ∀ s, s ≠ i → k'.Live s → ¬ k'.IsSuspended s →
        k.Live s ∧ (¬ k.IsSuspended s ∨ k.Suspended s i) := by
      intro s hsi hs hns
      refine ⟨(h.others s hsi).live_iff.mp hs, ?_⟩
      by_cases hsus' : k.IsSuspended s
      · obtain ⟨c, hc⟩ := hsus'
        by_cases hci : c = i
        · exact .inr (hci ▸ hc)
        · exact absurd ⟨c, (hsus s c).mpr ⟨hc, hci⟩⟩ hns
      · exact .inl hsus'
    have hkey : ∀ s t, s ≠ i → t ≠ i → k'.Live s → k'.Live t → k'.img s = k'.img t →
        ¬ k'.IsSuspended s → ¬ k'.IsSuspended t → s = t := by
      intro s t hsi hti hs ht heq hns hnt
      rw [(h.others s hsi).img, (h.others t hti).img] at heq
      obtain ⟨hls, hs'⟩ := hother s hsi hs hns
      obtain ⟨hlt, ht'⟩ := hother t hti ht hnt
      rcases hs' with hs' | hs' <;> rcases ht' with ht' | ht'
      · exact hv.alone s t hls hlt heq hs' ht'
      · have himg := (hv.child t i ht').2
        exact absurd (hv.alone s i hls hi (heq.trans himg.symm) hs' hfree) hsi
      · have himg := (hv.child s i hs').2
        exact absurd (hv.alone t i hlt hi (heq.symm.trans himg.symm) ht' hfree) hti
      · exact hv.oneParent s t i hs' ht'
    intro s t hs ht heq hns hnt
    have hnew : ∀ q, q ≠ i → k'.Live q → k'.Live i → k'.img q ≠ k'.img i := by
      intro q hqi hq hi' he
      rw [(h.others q hqi).img, h.gone hi'] at he
      exact Nat.ne_of_lt (hv.fresh q ((h.others q hqi).live_iff.mp hq)) he
    by_cases hsi : s = i <;> by_cases hti : t = i
    · exact hsi.trans hti.symm
    · subst hsi
      exact absurd heq.symm (hnew t hti ht hs)
    · subst hti
      exact absurd heq (hnew s hsi hs ht)
    · exact hkey s t hsi hti hs ht heq hns hnt

theorem SlotEases.congr (h : SlotEases R k m q)
    (hp : k'.proc q = m.proc q) : SlotEases R k k' q := by
  have hsame : SlotEases R m k' q := .same (by rw [hp])
  exact h.trans hsame

theorem Ends.leaves {k m k' : Kernel} {i : Slot} (h : Ends k i m k') : Leaves k i k' where
  others q hq := (h.eases.slot q).congr (h.others q hq)
  alone q hs := h.alone q (h.sleepsOn hs)
  gone hl := absurd hl h.dead
  free := by
    rintro ⟨c, hc⟩
    exact h.dead hc.live
  ended := by rw [h.ended, h.eases.ended]
  nimg := Nat.le_of_eq ((congrArg Face.nimg h.rest).trans h.eases.nimg).symm
  fresh hl := absurd hl h.dead

/-- A successful `exec` is a way to leave the image. -/
theorem sysExec_leaves {m : Mail} {a : Answer} (h : (k.place a.program).2.isSome) :
    Leaves k k.curr (k.sysExec m a).1 := by
  obtain ⟨k1, hbare, heq⟩ := sysExec_eq_of_some (m := m) h
  have hface : k1.face = k.face := face_eq_of_bare hbare
  have hrel := vforkRelease_eases (k1.enterImage k.curr a) k.curr
  have halone := vforkRelease_not_sleepsOn (k1.enterImage k.curr a) k.curr
  generalize hk3 : (k1.enterImage k.curr a).vforkRelease k.curr = k3 at heq hrel halone
  generalize hk' : (k.sysExec m a).1 = k' at heq ⊢
  have hn1 : k1.nimg = k.nimg := congrArg Face.nimg hface
  have hself : (k'.proc k.curr).state = .running := by
    rw [heq]
    simp [markEnd, setProc]
  have hother : ∀ q, q ≠ k.curr → k'.proc q = k3.proc q := by
    intro q hq
    rw [heq]
    simp [markEnd, setProc, hq]
  have himg : k'.img k.curr = k.nimg := by
    have h3 : k3.img k.curr = k1.nimg := by
      rw [(hrel.slot _).img]
      simp [enterImage, setProc, img]
    rw [heq, ← hn1, ← h3]
    simp [markEnd, setProc, img]
  have hnimg : k'.nimg = k.nimg + 1 := by
    have h3 : k3.nimg = k1.nimg + 1 := hrel.nimg
    rw [heq, ← hn1]
    exact h3
  constructor
  · intro q hq
    have h1 : SlotEases (· = k.curr) k (k1.enterImage k.curr a) q := by
      refine .same ?_
      have : (k1.enterImage k.curr a).proc q = k1.proc q := by
        simp [enterImage, setProc, hq]
      rw [this]
      exact congrFun (congrArg Face.place hface) q
    exact (h1.trans (hrel.slot q)).congr (hother q hq)
  · intro q hs
    by_cases hq : q = k.curr
    · simp [SleepsOn, hq, hself] at hs
    · rw [SleepsOn, hother q hq] at hs
      exact halone q hs
  · exact fun _ => himg
  · rintro ⟨c, hc⟩
    simp [Suspended, SleepsOn, hself] at hc
  · have h3 : k3.ended = k.ended := hrel.ended.trans (congrArg Face.ended hface)
    rw [heq, ← h3]
    rfl
  · exact hnimg ▸ Nat.le_succ _
  · intro _
    rw [himg, hnimg]
    exact Nat.lt_succ_self _

/-- `fork` puts the child in the place of its parent. -/
theorem Vfork.fork (hv : k.Vfork) (hc : k.Ready k.curr)
    (hu : (k.proc c).state = .unused) : ((k.forkInto c).sysTail (.block 0)).Vfork := by
  generalize hk' : (k.forkInto c).sysTail (.block 0) = k'
  have hne : c ≠ k.curr := by
    rintro rfl
    rcases hc with hc | hc <;> simp [hc] at hu
  have hproc : ∀ q, k'.proc q = (k.forkInto c).proc q := by
    intro q
    rw [← hk', sysTail]
    split <;> rfl
  have hpar : (k'.proc k.curr).place = ⟨.sleeping, .proc c, k.img k.curr⟩ := by
    rw [hproc]
    simp [forkInto, setProc, Proc.place, img]
  have hchild : (k'.proc c).place = ⟨.runnable, .none, k.img k.curr⟩ := by
    rw [hproc]
    simp [forkInto, setProc, Proc.place, img, hne]
  have hother : ∀ q, q ≠ k.curr → q ≠ c → k'.proc q = k.proc q := by
    intro q hq hqc
    rw [hproc]
    simp [forkInto, setProc, hq, hqc]
  have hnimg : k'.nimg = k.nimg := by
    rw [← hk', sysTail]
    split <;> rfl
  simp only [Proc.place, Place.mk.injEq] at hpar hchild
  have himg : ∀ q, q ≠ c → k'.img q = k.img q := by
    intro q hq
    by_cases hqp : q = k.curr
    · rw [hqp]
      exact hpar.2.2
    · rw [img, img, hother q hqp hq]
  have hlive : ∀ q, k'.Live q → q = c ∨ k.Live q := by
    intro q hq
    by_cases hqc : q = c
    · exact .inl hqc
    by_cases hqp : q = k.curr
    · exact .inr (hqp ▸ hc.live)
    · rw [Live, hother q hqp hqc] at hq
      exact .inr hq
  have hsus : ∀ q d, k'.Suspended q d →
      (q = k.curr ∧ d = c) ∨ (q ≠ k.curr ∧ q ≠ c ∧ k.Suspended q d) := by
    intro q d hs
    by_cases hqc : q = c
    · simp [Suspended, SleepsOn, hqc, hchild.1] at hs
    by_cases hqp : q = k.curr
    · subst hqp
      exact .inl ⟨rfl, Chan.proc.inj (hs.1.2.symm.trans hpar.2.1)⟩
    · rw [Suspended, SleepsOn, hother q hqp hqc] at hs
      exact .inr ⟨hqp, hqc, hs⟩
  have hcdead : ∀ q, ¬ k.Suspended q c := by
    intro q hs
    exact (hv.child q c hs).1.1 hu
  constructor
  · intro q hq
    rw [hnimg]
    by_cases hqc : q = c
    · rw [hqc, show k'.img c = k.img k.curr from hchild.2.2]
      exact hv.fresh _ hc.live
    · rw [himg q hqc]
      exact hv.fresh q ((hlive q hq).resolve_left hqc)
  · intro q d hs
    rcases hsus q d hs with ⟨rfl, rfl⟩ | ⟨hqp, hqc, hs⟩
    · exact ⟨by simp [Live, hchild.1], hchild.2.2.trans (himg _ hne.symm).symm⟩
    · obtain ⟨hl, hi⟩ := hv.child q d hs
      have hdc : d ≠ c := by
        rintro rfl
        exact hcdead q hs
      refine ⟨?_, by rw [himg d hdc, himg q hqc, hi]⟩
      by_cases hdp : d = k.curr
      · rw [hdp]
        simp [Live, hpar.1]
      · rw [Live, hother d hdp hdc]
        exact hl
  · intro q q' d hs hs'
    rcases hsus q d hs with ⟨rfl, rfl⟩ | ⟨_, _, hs⟩ <;>
      rcases hsus q' d hs' with ⟨hq', hd⟩ | ⟨_, _, hs'⟩
    · exact hq'.symm
    · exact absurd hs' (hcdead q')
    · exact absurd (hd ▸ hs) (hcdead q)
    · exact hv.oneParent q q' d hs hs'
  · -- the parent is suspended, so it is neither `s` nor `t`, and the child takes its part
    have hnp : ∀ s, ¬ k'.IsSuspended s → s ≠ k.curr := by
      rintro s hs rfl
      exact hs ⟨c, ⟨hpar.1, hpar.2.1⟩, hne⟩
    have hold : ∀ s, s ≠ c → k'.Live s → ¬ k'.IsSuspended s →
        k.Live s ∧ ¬ k.IsSuspended s ∧ k.img s ≠ k.img k.curr := by
      intro s hsc hs hns
      have hsp := hnp s hns
      have hls := (hlive s hs).resolve_left hsc
      have hns' : ¬ k.IsSuspended s := by
        rintro ⟨d, hd⟩
        refine hns ⟨d, ?_⟩
        rwa [Suspended, SleepsOn, hother s hsp hsc]
      exact ⟨hls, hns', fun he => hsp (hv.alone s k.curr hls hc.live he hns' hc.not_isSuspended)⟩
    intro s t hs ht heq hns hnt
    by_cases hsc : s = c <;> by_cases htc : t = c
    · exact hsc.trans htc.symm
    · subst hsc
      rw [himg t htc, show k'.img s = k.img k.curr from hchild.2.2] at heq
      exact absurd heq.symm (hold t htc ht hnt).2.2
    · subst htc
      rw [himg s hsc, show k'.img t = k.img k.curr from hchild.2.2] at heq
      exact absurd heq (hold s hsc hs hns).2.2
    · rw [himg s hsc, himg t htc] at heq
      exact hv.alone s t (hold s hsc hs hns).1 (hold t htc ht hnt).1 heq
        (hold s hsc hs hns).2.1 (hold t htc ht hnt).2.1

/-! ## The current process acts -/

theorem Acts.of_slots {k k' : Kernel} (hc : k.Ready k.curr)
    (h : ∀ q, SlotEases (fun _ => False) k k' q) (hn : SameEnds k k') : Acts k k' where
  others q _ := h q
  img := (h _).img
  live := ((h _).ready hc).live
  free := ((h _).ready hc).not_isSuspended
  ends := hn

theorem Acts.of_places (hc : k.Ready k.curr) (h : ∀ q, (k'.proc q).place = (k.proc q).place)
    (hn : SameEnds k k') : Acts k k' :=
  .of_slots hc (fun q => .same (h q)) hn

/-- The current process gives itself a new state. -/
theorem Acts.setSelf {p : Proc} (h : Acts k m) (hp : k'.proc = (m.setProc k.curr p).proc)
    (hn : SameEnds m k') (himg : p.img = m.img k.curr)
    (hlive : p.state ≠ .unused ∧ p.state ≠ .zombie)
    (hfree : p.state = .sleeping → ∀ d, p.chan = .proc d → d = k.curr) : Acts k k' := by
  have hself : k'.proc k.curr = p := by simp [hp, setProc]
  constructor
  · intro q hq
    exact (h.others q hq).congr (by simp [hp, setProc, hq])
  · rw [Kernel.img, hself, himg, h.img]
  · rw [Live, hself]
    exact hlive
  · rintro ⟨d, ⟨hst, hch⟩, hne⟩
    rw [hself] at hst hch
    exact hne (hfree hst d hch)
  · exact h.ends.trans hn

theorem Acts.congr (h : Acts k m) (hp : k'.proc = m.proc) (hn : SameEnds m k') : Acts k k' where
  others q hq := (h.others q hq).congr (congrFun hp q)
  img := by rw [Kernel.img, hp]; exact h.img
  live := by rw [Live, hp]; exact h.live
  free := by simpa only [IsSuspended, Suspended, SleepsOn, hp] using h.free
  ends := h.ends.trans hn

theorem Acts.sleep {c : Chan} (h : Acts k m) (hcurr : m.curr = k.curr)
    (hc : ∀ d, c = .proc d → d = k.curr) : Acts k (m.sleep c) := by
  refine h.setSelf (p := { m.proc k.curr with chan := c, state := .sleeping }) ?_ ⟨rfl, rfl⟩ rfl
    (by simp) (fun _ => hc)
  rw [Kernel.sleep, hcurr]

theorem Acts.sysTail (h : Acts k m) (hcurr : m.curr = k.curr) (o : Outcome) :
    Acts k (m.sysTail o) := by
  cases o with
  | ret v =>
    refine h.setSelf (p := { m.proc k.curr with state := .running }) ?_ ⟨rfl, rfl⟩ rfl
      (by simp) (by simp)
    rw [← hcurr]
    rfl
  | block v =>
    refine h.congr ?_ ?_ <;> rw [Kernel.sysTail]
    · split <;> rfl
    · split <;> exact ⟨rfl, rfl⟩
  | resume => exact h.congr rfl ⟨rfl, rfl⟩

/-! ## Reads and writes of pipes -/

/-- The image of a sleeper that is not suspended is not that of a process that
    runs. -/
theorem Vfork.img_ne {s : Slot} {c : Chan} (hv : k.Vfork) (hi : k.Ready i) (hs : k.SleepsOn s c)
    (hc : ∀ d, c ≠ .proc d) : k.img i ≠ k.img s := by
  intro heq
  have his := hv.alone i s hi.live (live_of_sleeping hs.1) heq hi.not_isSuspended
    fun ⟨d, hd⟩ => hs.not_suspended hc d hd
  subst his
  rcases hi with hi | hi <;> simp [hi, SleepsOn] at hs

theorem SlotEases.kcomplete {c : Chan} {v : Word} (hp : m.proc = k.proc) (hs : k.SleepsOn i c)
    (hc : ∀ d, c ≠ .proc d) (q : Slot) : SlotEases R k (m.kcomplete i v) q := by
  by_cases hq : q = i
  · subst hq
    have hproc : (m.kcomplete q v).proc q = { k.proc q with chan := .none, state := .runnable } := by
      simp [Kernel.kcomplete, Kernel.wake, setret, setProc, hp]
    refine .woken ?_ hs.1 (fun d hd => absurd hd (hs.not_suspended hc d)) (by rw [hproc])
    rw [Kernel.img, hproc]
    rfl
  · refine .same ?_
    simp [Kernel.kcomplete, Kernel.wake, setret, setProc, hp, hq]

/-- A read feeds at most one parked writer, which may wake. -/
theorem pullWriter_slot (k : Kernel) (pi : PipeId) (q : Slot) :
    SlotEases R k (k.pullWriter pi) q := by
  cases hws : k.kfindSleeper (.nwrite pi) with
  | none =>
    rw [pullWriter_of_none hws]
    exact .same rfl
  | some ws =>
    have hproc : (k.pullInto pi ws).proc = k.proc :=
      congrArg (·.proc) (putAll_moved ..).still
    rw [pullWriter_of_some hws]
    dsimp only
    split
    · exact .kcomplete hproc (kfindSleeper_some hws) (by simp) q
    · exact .same (congrArg Proc.place (congrFun hproc q))

theorem SameEnds.of_still (h : k'.still = k.still) : SameEnds k k' :=
  ⟨congrArg (·.nimg) h, congrArg (·.ended) h⟩

theorem pullWriter_ctl (k : Kernel) (pi : PipeId) :
    SameEnds k (k.pullWriter pi) ∧ (k.pullWriter pi).curr = k.curr := by
  cases hws : k.kfindSleeper (.nwrite pi) with
  | none =>
    rw [pullWriter_of_none hws]
    exact ⟨.refl k, rfl⟩
  | some ws =>
    have hput : (k.pullInto pi ws).still = k.still := (putAll_moved ..).still
    rw [pullWriter_of_some hws]
    dsimp only
    split <;>
      exact ⟨⟨congrArg (·.nimg) hput, congrArg (·.ended) hput⟩, congrArg (·.curr) hput⟩

theorem piperead_acts (hc : k.Ready k.curr) (pi : PipeId) (addr n : Word) :
    Acts k (k.piperead pi addr n).1 ∧ (k.piperead pi addr n).1.curr = k.curr := by
  generalize hk1 : k.drainInto pi addr n = k1
  have hstill : k1.still = (k.openRead pi n).still := hk1 ▸ drainInto_still ..
  have hslot : ∀ q, SlotEases (fun _ => False) k (k1.pullWriter pi) q := by
    intro q
    have hsame : SlotEases (fun _ => False) k k1 q :=
      .same (congrArg (fun k => (k.proc q).place) hstill)
    exact hsame.trans (pullWriter_slot k1 pi q)
  obtain ⟨hends, hcurr⟩ := pullWriter_ctl k1 pi
  have hends1 : SameEnds k k1 := ⟨congrArg (·.nimg) hstill, congrArg (·.ended) hstill⟩
  have hacts : Acts k (k1.pullWriter pi) := .of_slots hc hslot (hends1.trans hends)
  have hcurr' : (k1.pullWriter pi).curr = k.curr := hcurr.trans (congrArg (·.curr) hstill)
  rw [piperead_eq, hk1]
  dsimp only
  split
  · exact ⟨hacts, hcurr'⟩
  · split
    · exact ⟨hacts.sleep hcurr' (by simp), hcurr'⟩
    · exact ⟨hacts, hcurr'⟩

section

variable (hv : k.Vfork) (hc : k.Ready k.curr) (pi : PipeId) (addr n : Word)
include hv hc

/-- A write completes at most one parked reader. -/
theorem deposit_slot
    (q : Slot) : SlotEases R k (k.deposit pi addr n).1 q := by
  cases hrs : k.kfindSleeper (.nread pi) with
  | none =>
    rw [deposit_of_none hrs]
    exact .same rfl
  | some rs =>
    have hs := kfindSleeper_some hrs
    have hproc : (k.depositInto pi rs addr n).proc = k.proc :=
      congrArg (·.proc) (handOver_moved ..).still
    rw [deposit_of_some hrs (hv.img_ne hc hs (by simp))]
    exact .kcomplete hproc hs (by simp) q

theorem deposit_ctl :
    SameEnds k (k.deposit pi addr n).1 ∧ (k.deposit pi addr n).1.curr = k.curr := by
  cases hrs : k.kfindSleeper (.nread pi) with
  | none =>
    rw [deposit_of_none hrs]
    exact ⟨.refl k, rfl⟩
  | some rs =>
    have hhand : (k.depositInto pi rs addr n).still = k.still := (handOver_moved ..).still
    rw [deposit_of_some hrs (hv.img_ne hc (kfindSleeper_some hrs) (by simp))]
    exact ⟨⟨congrArg (·.nimg) hhand, congrArg (·.ended) hhand⟩, congrArg (·.curr) hhand⟩

theorem pipewrite_acts :
    Acts k (k.pipewrite pi addr n).1 ∧ (k.pipewrite pi addr n).1.curr = k.curr := by
  have hopen : Acts k (k.openCall pi addr n) := .of_places hc (fun _ => rfl) ⟨rfl, rfl⟩
  have hv1 : (k.openCall pi addr n).Vfork := hv.acts hc hopen
  have hc1 : (k.openCall pi addr n).Ready (k.openCall pi addr n).curr := hc
  cases hr : (k.pipes pi).readopen with
  | false =>
    rw [pipewrite_of_shut hr]
    exact ⟨hopen, rfl⟩
  | true =>
    rw [pipewrite_of_open hr]
    have hslot := deposit_slot (R := fun _ => False) hv1 hc1 pi addr n
    obtain ⟨hends, hcurr⟩ := deposit_ctl hv1 hc1 pi addr n
    generalize (k.openCall pi addr n).deposit pi addr n = r at hslot hends hcurr ⊢
    obtain ⟨k1, d⟩ := r
    dsimp only at hslot hends hcurr ⊢
    have hacts : Acts k k1 := by
      refine .of_slots hc (fun q => ?_) ⟨hends.1, hends.2⟩
      have hsame : SlotEases (fun _ => False) k (k.openCall pi addr n) q := .same rfl
      exact hsame.trans (hslot q)
    generalize hk2 : k1.fillInto pi addr n d = k2
    have hstill : k2.still = k1.still := hk2 ▸ (putAll_moved ..).still
    have hacts2 : Acts k k2 := hacts.congr (congrArg (·.proc) hstill) (.of_still hstill)
    have hcurr2 : k2.curr = k.curr := (congrArg (·.curr) hstill : k2.curr = k1.curr).trans hcurr
    split
    · exact ⟨hacts2, hcurr2⟩
    · refine ⟨?_, hcurr2⟩
      exact Acts.sleep (c := .nwrite pi) (hacts2.congr rfl ⟨rfl, rfl⟩) hcurr2 (by simp)

end

/-! ## Every action keeps the invariant -/

variable {Q : Prop} {P : Slot → Prop} {C : Kernel → Answer → Prop}

theorem Eases.acts (h : Eases (fun _ => False) k k') (hc : k.Ready k.curr) : Acts k k' :=
  .of_slots hc h.slot ⟨h.nimg, h.ended⟩

theorem Acts.refl (hc : k.Ready k.curr) : Acts k k :=
  .of_places hc (fun _ => rfl) (.refl k)

theorem kfsPipe_acts (hc : k.Ready k.curr) (fdarray : Word) : Acts k (k.kfsPipe fdarray).1 := by
  rcases kfsPipe_cases (R := fun _ => False) k fdarray with h | ⟨pi, m, _, h⟩
  · exact h.acts hc
  · refine .of_slots hc (fun q => ?_) ⟨h.nimg, h.ended⟩
    have hsame : SlotEases (fun _ => False) k ((k.openPipe pi).setMem k.curr m) q := .same rfl
    exact hsame.trans (h.slot q)

/-- Whatever a handler does for its caller, short of `fork` and `exec`. -/
theorem Fg.acts (h : Fg C k k') (hv : k.Vfork) (hc : k.Ready k.curr) :
    Acts k k' ∨ Leaves k k.curr k' ∨
      ∃ c, (k.proc c).state = .unused ∧ k' = ((k.copied c).forkInto c).sysTail (.block 0) := by
  have hrefl : Acts k k := .refl hc
  cases h with
  | own m => exact .inl (hrefl.congr rfl ⟨rfl, rfl⟩)
  | ret v => exact .inl (hrefl.sysTail rfl _)
  | sleep v hch =>
    refine .inl ((hrefl.sleep rfl ?_).sysTail rfl _)
    rintro d rfl
    simpa using hch
  | reap hz _ =>
    refine .inl (Eases.acts ?_ hc)
    exact .freed hz rfl rfl
  | resume v => exact .inl (hrefl.setSelf rfl ⟨rfl, rfl⟩ rfl (by simp) (by simp))
  | fork hu => exact .inr (.inr ⟨_, hu, rfl⟩)
  | exec _ _ hp => exact .inr (.inl (sysExec_leaves hp))
  | place => exact .inl (Eases.acts (.of_face (place_face k _)) hc)
  | sbrk n =>
    obtain ⟨m, hm⟩ := ksbrk_face k n
    exact .inl (.of_places hc (fun q => congrFun (congrArg Face.place hm) q)
      ⟨congrArg Face.nimg hm, congrArg Face.ended hm⟩)
  | close fd => exact .inl ((kfsClose_run trivial k fd).eases.acts hc)
  | dup fd => exact .inl (Eases.acts (.of_face (kfsDup_run k fd).face) hc)
  | «open» => exact .inl ((kfsOpen_run trivial trivial k _).eases.acts hc)
  | pipe fdarray => exact .inl (kfsPipe_acts hc fdarray)
  | read _ h =>
    obtain ⟨hacts, hcurr⟩ := piperead_acts hc _ _ _
    exact .inl (hacts.sysTail hcurr _)
  | write _ h =>
    obtain ⟨hacts, hcurr⟩ := pipewrite_acts hv hc _ _ _
    exact .inl (hacts.sysTail hcurr _)

/-- The processes that stop being suspended are parents of those that end. -/
structure Releases (k k' : Kernel) : Prop where
  mono : ∀ c, k.ended c ≤ k'.ended c
  only : ∀ q c, k.Suspended q c → ¬ k'.Suspended q c → k.ended c < k'.ended c

theorem Releases.trans {k k' k'' : Kernel} (h : Releases k k') (h' : Releases k' k'') :
    Releases k k'' where
  mono c := Nat.le_trans (h.mono c) (h'.mono c)
  only q c hs hn := by
    by_cases hs' : k'.Suspended q c
    · exact Nat.lt_of_le_of_lt (h.mono c) (h'.only q c hs' hn)
    · exact Nat.lt_of_lt_of_le (h.only q c hs hs') (h'.mono c)

theorem Releases.of_suspended {k k' : Kernel} (h : ∀ q c, k.Suspended q c → k'.Suspended q c)
    (he : k'.ended = k.ended) : Releases k k' where
  mono c := Nat.le_of_eq (congrFun he c).symm
  only q c hs hn := absurd (h q c hs) hn

theorem Acts.releases (h : Acts k k') (hc : k.Ready k.curr) : Releases k k' := by
  refine .of_suspended (fun q c hs => ?_) h.ends.2
  have hq : q ≠ k.curr := by
    rintro rfl
    exact hc.not_isSuspended ⟨c, hs⟩
  exact (h.others q hq).suspended_iff.mpr hs

theorem Leaves.releases (h : Leaves k i k') (hi : ¬ k.IsSuspended i) : Releases k k' where
  mono c := by
    rw [h.ended]
    by_cases hc : c = i
    · subst hc
      simp
    · simp [hc]
  only q c hs hn := by
    have hc : c = i := by
      by_contra hc
      exact hn ((h.suspended_iff hi).mpr ⟨hs, hc⟩)
    subst hc
    simp [h.ended]

theorem Vfork.of_places (hv : k.Vfork) (h : ∀ q, (k'.proc q).place = (k.proc q).place)
    (hn : SameEnds k k') : k'.Vfork ∧ Releases k k' := by
  have hslot : ∀ q, SlotEases (fun _ => False) k k' q := fun q => .same (h q)
  refine ⟨hv.congr (fun q => (hslot q).img) (fun q => (hslot q).live_iff)
    (fun q _ => (hslot q).suspended_iff) hn.1, ?_⟩
  exact .of_suspended (fun q _ => (hslot q).suspended_iff.mpr) hn.2

theorem Ends.vfork (h : Ends k i m k') (hv : k.Vfork) (hi : k.Live i)
    (hs : ¬ k.IsSuspended i) : k'.Vfork ∧ Releases k k' :=
  ⟨hv.leaves hi hs h.leaves, h.leaves.releases hs⟩

theorem Bg.vfork (h : Bg True P k k') (hv : k.Vfork) : k'.Vfork ∧ Releases k k' := by
  rcases h.eases_or (R := fun _ => False) (.inl trivial) with ⟨he, _⟩ | ⟨i, m, hsl, hs, he⟩
  · exact ⟨hv.wakes he, .of_suspended (fun q _ => (he.slot q).suspended_iff.mpr) he.ended⟩
  · exact he.vfork hv (live_of_sleeping hsl) (hs trivial)

theorem forkInto_releases {c : Slot} (hc : k.Ready k.curr) (hu : (k.proc c).state = .unused) :
    Releases k ((k.forkInto c).sysTail (.block 0)) := by
  refine .of_suspended (fun q d hs => ?_) ?_
  · -- the parent was not suspended before, and the child's slot was not in use
    have hq : q ≠ k.curr := by
      rintro rfl
      exact hc.not_isSuspended ⟨d, hs⟩
    have hqc : q ≠ c := by
      rintro rfl
      exact hs.live.1 hu
    have hproc : ((k.forkInto c).sysTail (.block 0)).proc q = k.proc q := by
      rw [sysTail]
      split <;> simp [swtch, setret, forkInto, setProc, hq, hqc]
    rwa [Suspended, SleepsOn, hproc]
  · rw [sysTail]
    split <;> rfl

theorem Fg.vfork (h : Fg C k k') (hv : k.Vfork) (hc : k.Ready k.curr) :
    k'.Vfork ∧ Releases k k' := by
  rcases h.acts hv hc with ha | hl | ⟨c, hu, rfl⟩
  · exact ⟨hv.acts hc ha, ha.releases hc⟩
  · exact ⟨hv.leaves hc.live hc.not_isSuspended hl, hl.releases hc.not_isSuspended⟩
  · have hf := copied_face k c
    have hc' := (Eases.of_face (R := fun _ => False) hf).ready_curr hc
    obtain ⟨hv', hr⟩ := hv.of_places (fun q => congrFun (congrArg Face.place hf) q) (.of_face hf)
    exact ⟨hv'.fork hc' (copied_unused hu), hr.trans (forkInto_releases hc' (copied_unused hu))⟩

theorem Atom.vfork (h : Atom True P C k k') (hv : k.Vfork) : k'.Vfork ∧ Releases k k' := by
  cases h with
  | bg h => exact h.vfork hv
  | fg hk h => exact h.vfork hv hk.ready
  | user mem r0 => exact hv.of_places (fun _ => rfl) ⟨rfl, rfl⟩
  | mail m => exact hv.of_places (fun _ => rfl) ⟨rfl, rfl⟩
  | start =>
    have hf := kfsStart_face k
    exact hv.of_places (fun q => congrFun (congrArg Face.place hf) q) (.of_face hf)
  | turn h =>
    exact hv.of_places (fun q => congrFun (congrArg Face.place h) q)
      ⟨congrArg Face.nimg h, congrArg Face.ended h⟩
  | yield hk h =>
    have hc : k.Ready k.curr := .inr hk
    have ha : Acts k k' := by
      subst h
      exact (Acts.refl hc).setSelf rfl ⟨rfl, rfl⟩ rfl (by simp) (by simp)
    exact ⟨hv.acts hc ha, ha.releases hc⟩
  | die status hk =>
    obtain ⟨m, hm⟩ := terminate_ends k k.curr status
    obtain ⟨hv', hr⟩ := hm.vfork hv hk.live hk.not_isSuspended
    generalize k.terminate k.curr status = k1 at hv' hr
    have hsw : k1.swtch.Vfork ∧ Releases k1 k1.swtch := hv'.of_places (fun _ => rfl) ⟨rfl, rfl⟩
    exact ⟨hsw.1, hr.trans hsw.2⟩

theorem Trail.vfork (h : Trail True P C k k') (hv : k.Vfork) : k'.Vfork ∧ Releases k k' := by
  induction h with
  | refl => exact ⟨hv, .of_suspended (fun _ _ => id) rfl⟩
  | tail _ ha ih =>
    obtain ⟨hv', hr⟩ := ih
    obtain ⟨hv'', hr'⟩ := ha.vfork hv'
    exact ⟨hv'', hr.trans hr'⟩

theorem Vfork.boot (c : Config) : c.boot.Vfork := by
  have hns : ∀ i d, ¬ c.boot.Suspended i d := fun i d hs => c.boot_not_sleeping i hs.1.1
  have himg : ∀ i, c.boot.Live i → c.boot.img i = i.val := by
    intro i hi
    rcases c.boot_ready_or_unused i with hu | ⟨_, h⟩
    · exact absurd hu hi.1
    · exact h
  constructor
  · intro i hi
    rw [himg i hi]
    exact i.isLt
  · exact fun q d hs => absurd hs (hns q d)
  · exact fun q q' d hs => absurd hs (hns q d)
  · intro s t hs ht heq _ _
    rw [himg s hs, himg t ht] at heq
    exact Fin.ext heq

theorem Vfork.step {e : Event} (hv : k.Vfork) (ht : k.Turn) (hcalm : k.Calm e)
    (h : k.step e = some k') : k'.Vfork ∧ Releases k k' :=
  Trail.vfork (step_trail (C := fun _ _ => True) ht (fun _ => hcalm) (fun _ _ _ => trivial) h) hv

theorem Reachable.vfork {ok : Kernel → Event → Prop} (hcalm : ∀ k e, ok k e → k.Calm e)
    (h : Reachable ok k) : k.Turn ∧ k.Vfork :=
  h.invariant Vfork.boot fun _ _ _ ht hok hs hv => (hv.step ht (hcalm _ _ hok) hs).1

/-- As long as no signal hits a process that is suspended in `fork`, at most one
    process of an image can run, and a suspended parent stays suspended until
    its child has exec'd or terminated. -/
theorem vfork_exclusive {k : Kernel} (h : k.Reachable Calm) :
    (∀ i j, k.img i = k.img j → k.Ready i → k.Ready j → i = j) ∧
    ∀ e k', k.Calm e → k.step e = some k' →
      ∀ q c, k.Suspended q c → ¬ k'.Suspended q c → k.ended c < k'.ended c := by
  obtain ⟨ht, hv⟩ := h.vfork fun _ _ => id
  constructor
  · intro i j hij hi hj
    exact hv.alone i j hi.live hj.live hij hi.not_isSuspended hj.not_isSuspended
  · intro e k' hcalm hs
    exact (hv.step ht hcalm hs).2.only

/-- A shell alone in the machine. -/
def shellConfig : Config where
  prog i := if i = 0 then some { pid := 1 } else none
  curr := 0
  loaded := by decide
  nextpid := 2
  fgpid := 1
  arena := 0x1000
  arenaEnd := 0x100000

/-- After `fork` the theorem applies: the shell and its child share an image,
    and the shell is the one that is suspended. -/
theorem vfork_exclusive_after_fork :
    ∃ k : Kernel, k.Reachable Calm ∧ (k.Suspended 0 1 ∧ k.Ready 1 ∧ k.img 0 = k.img 1) ∧
      (∀ i j, k.img i = k.img j → k.Ready i → k.Ready j → i = j) ∧
      ∀ e k', k.Calm e → k.step e = some k' →
        ∀ q c, k.Suspended q c → ¬ k'.Suspended q c → k.ended c < k'.ended c := by
  obtain ⟨k, hk, h⟩ : ∃ k : Kernel, k.Reachable Calm ∧
      (k.Suspended 0 1 ∧ k.Ready 1 ∧ k.img 0 = k.img 1) :=
    exists_reachable shellConfig (Event.call 1) (by decide +kernel)
  exact ⟨k, hk, h, vfork_exclusive hk⟩

/-- The shell forks, its child forks, and the grandchild kills the child, which
    is suspended: the shell is released although the grandchild runs in the
    shell's image. -/
def killSuspended : List Event := Event.call 1 ++ Event.call 1 ++ Event.call 6 2

/-- A program with a SIGINT handler has forked and the shell waits for it. Then
    Ctrl-C arrives. -/
def interruptSuspended : List Event :=
  Event.call 1 ++ Event.call 7 0 0 0 { program := .row 100 100 0 0 } ++ Event.call 23 0 0 4 ++
    Event.call 1 ++ Event.quantum [] ++ Event.call 3 ++ Event.quantum [3]

/-- Signals to a suspended parent break the exclusion: after `kill` as well as
    after Ctrl-C with a handler two processes of one image can run, in the
    second case although nobody exec'd or terminated since the `fork`. -/
theorem vfork_not_exclusive :
    (∃ k : Kernel, k.Reachable (fun _ _ => True) ∧ k.Ready 0 ∧ k.Ready 2 ∧ k.img 0 = k.img 2) ∧
    ∃ k : Kernel, k.Reachable (fun _ _ => True) ∧ k.Ready 1 ∧ k.Ready 2 ∧ k.img 1 = k.img 2 ∧
      k.ended 2 = 0 :=
  ⟨exists_reachable shellConfig killSuspended (by decide +kernel),
    exists_reachable shellConfig interruptSuspended (by decide +kernel)⟩

end Kernel

end DmaCpu.Xv6
