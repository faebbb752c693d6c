-- SUMMARY: The scheduler is fair: fewer than `nproc` selections pass a waiting process over.
import DmaCpu.Xv6.Acts
import DmaCpu.Xv6.Boot

/-!
# Round robin

`pick` starts behind the current process, and what it selects becomes the current
process. So every selection that passes a waiting process over moves the rotation
point closer to it, whatever the processes do in between: nothing else moves that
point.
-/
namespace DmaCpu.Xv6

variable {k k' : Kernel} {p q : Slot} {e : Event}

namespace Kernel

/-- Process `p` is RUNNABLE and not the init filler. -/
def Waits (k : Kernel) (p : Slot) : Prop :=
  (k.proc p).state = .runnable ∧ (k.proc p).pid ≠ k.initpid

instance (k : Kernel) (p : Slot) : Decidable (k.Waits p) :=
  inferInstanceAs (Decidable (_ ∧ _))

/-! ## One selection -/

/-- The number of slots that `pick` looks at before `p`, from the rotation point `c`. -/
def ahead (c p : Slot) : Nat := (p - c - 1).val

theorem idxOf_pickOrder (c p : Slot) :
    ((List.finRange nproc).map fun off => c + off + 1).idxOf p = ahead c p := by
  revert c p
  decide

theorem ahead_lt_of_passed {c : Slot} (h : ahead c q ≤ ahead c p) (hne : q ≠ p) :
    ahead q p < ahead c p := by
  revert c p q
  decide

/-- The first waiting process of the list is selected. -/
theorem pickFrom_of_waits {l : List Slot} (filler : Option Slot) (hp : p ∈ l) (hw : k.Waits p) :
    ∃ q, k.pickFrom l filler = some q ∧ k.Waits q ∧ l.idxOf q ≤ l.idxOf p := by
  induction l generalizing filler with
  | nil => simp at hp
  | cons j l ih =>
    rw [pickFrom]
    by_cases hj : k.Waits j
    · rw [if_pos hj.1, if_pos hj.2]
      exact ⟨j, rfl, hj, by simp⟩
    · have hpj : j ≠ p := fun h => hj (h ▸ hw)
      obtain ⟨f, hf⟩ : ∃ f, (if (k.proc j).state = .runnable then
          if (k.proc j).pid ≠ k.initpid then some j else k.pickFrom l (some j)
          else k.pickFrom l filler) = k.pickFrom l f := by
        split
        next hrun => exact ⟨some j, if_neg fun hpid => hj ⟨hrun, hpid⟩⟩
        next => exact ⟨filler, rfl⟩
      obtain ⟨q, hq, hwq, hle⟩ := ih f (List.mem_of_ne_of_mem hpj.symm hp)
      have hqj : j ≠ q := fun h => hj (h ▸ hwq)
      refine ⟨q, hf.trans hq, hwq, ?_⟩
      rw [List.idxOf_cons_ne _ hqj, List.idxOf_cons_ne _ hpj]
      exact Nat.succ_le_succ hle

theorem pick_of_waits (hw : k.Waits p) :
    ∃ q, k.pick = some q ∧ k.Waits q ∧ (q = p ∨ ahead q p < ahead k.curr p) := by
  have hmem : p ∈ (List.finRange nproc).map fun off => k.curr + off + 1 :=
    List.idxOf_lt_length_iff.mp (by
      rw [idxOf_pickOrder, List.length_map]
      exact (p - k.curr - 1).isLt)
  obtain ⟨q, hq, hwq, hle⟩ := pickFrom_of_waits none hmem hw
  rw [idxOf_pickOrder, idxOf_pickOrder] at hle
  exact ⟨q, hq, hwq, or_iff_not_imp_left.mpr (ahead_lt_of_passed hle)⟩

/-! ## Handlers leave the current process as it is -/

theorem consCopy_curr (i : Slot) (n : Nat) (dst : Word) (got : Nat) (k : Kernel) :
    (consCopy i n dst got k).1.curr = k.curr := by
  induction n generalizing dst got k with
  | zero => rfl
  | succ n ih =>
    rw [consCopy]
    split
    · rfl
    dsimp only
    split
    · rfl
    · exact ih ..

section

variable (k : Kernel)

theorem kconsread_curr (dst n : Word) (rx : List Byte) :
    (k.kconsread dst n rx).1.curr = k.curr := by
  have hpoll : BgTrail False (fun _ => True) k (k.consPoll rx) := consPoll_trail False.elim
  simp only [kconsread]
  split
  · exact hpoll.curr
  · exact (consCopy_curr ..).trans hpoll.curr

theorem piperead_curr (pi : PipeId) (addr n : Word) :
    (k.piperead pi addr n).1.curr = k.curr := by
  have hpull := (Nudges.pullWriter (k.drainInto pi addr n) pi).curr
  have h := hpull.trans (congrArg (·.curr) (drainInto_still k pi addr n))
  rw [piperead_eq]
  dsimp only
  split
  · exact h
  · split <;> exact h

theorem pipewrite_curr (pi : PipeId) (addr n : Word) :
    (k.pipewrite pi addr n).1.curr = k.curr := by
  cases hr : (k.pipes pi).readopen with
  | false =>
    rw [pipewrite_of_shut hr]
    rfl
  | true =>
    have hdep := (Nudges.deposit (k.openCall pi addr n) pi addr n).curr
    rw [pipewrite_of_open hr]
    dsimp only
    generalize (k.openCall pi addr n).deposit pi addr n = r at hdep ⊢
    have hfill : (r.1.fillInto pi addr n r.2).curr = k.curr :=
      (congrArg (·.curr) (putAll_moved ..).still).trans hdep
    split <;> exact hfill

theorem fileread_curr (f : FileId) (addr n : Word) (a : Answer) :
    (k.fileread f addr n a).1.curr = k.curr := by
  simp only [fileread]
  split
  · rfl
  split
  · exact piperead_curr ..
  · split
    · exact kconsread_curr ..
    · rfl
  · rw [answer]
    split <;> rfl
  · rfl

theorem sysRead_curr (m : Mail) (a : Answer) : (k.sysRead m a).1.curr = k.curr := by
  simp only [sysRead, kfsRead]
  split
  · rfl
  split
  · split
    · rfl
    · exact fileread_curr ..
  · exact kconsread_curr ..

theorem filewrite_curr (f : FileId) (addr n : Word) (a : Answer) :
    (k.filewrite f addr n a).1.curr = k.curr := by
  simp only [filewrite]
  split
  · rfl
  split
  · exact pipewrite_curr ..
  · split <;> rfl
  · rfl
  · rfl

theorem sysWrite_curr (m : Mail) (a : Answer) : (k.sysWrite m a).1.curr = k.curr := by
  simp only [sysWrite, kfsWrite]
  split
  · rfl
  split
  · split
    · rfl
    · exact filewrite_curr ..
  · rfl

theorem terminate_curr (i : Slot) (status : Word) :
    (k.terminate i status).curr = k.curr := by
  obtain ⟨m, hm⟩ := terminate_ends k i status
  generalize k.terminate i status = k' at hm ⊢
  exact congrArg Control.curr hm.ctl

theorem sysExec_curr (m : Mail) (a : Answer) : (k.sysExec m a).1.curr = k.curr := by
  cases hp : (k.place a.program).2 with
  | none =>
    rw [sysExec_eq_of_none hp]
    exact curr_of_face (place_face k _)
  | some x =>
    obtain ⟨k1, hbare, heq⟩ := sysExec_eq_of_some (m := m) (a := a) (k := k) (by simp [hp])
    have hrel := ((Nudges.of_bare hbare).trans (.enterImage k1 k.curr a)).trans
      (.vforkRelease _ k.curr)
    rw [heq]
    generalize (k1.enterImage k.curr a).vforkRelease k.curr = k2 at hrel ⊢
    exact hrel.curr

end

theorem needFs_curr {f : Kernel → Kernel × Word} (h : Wakens k (f k).1) :
    (k.needFs f).1.curr = k.curr := by
  rw [needFs]
  split
  · exact h.curr
  · rfl

theorem dispatch_curr (k : Kernel) (m : Mail) (a : Answer) :
    (k.dispatch m a).1.curr = k.curr := by
  rw [dispatch]
  split
  · simp only [sysFork]
    split
    · rfl
    next c _ =>
      have hcurr := curr_of_face (copied_face k c)
      rw [copied] at hcurr
      exact hcurr
  · dsimp only
    exact terminate_curr ..
  · simp only [sysWait]
    split
    · split <;> rfl
    · split <;> rfl
  · exact needFs_curr (kfsPipe_run trivial trivial trivial k _).wakens
  · exact sysRead_curr ..
  · simp only [sysKill]
    split
    · rfl
    split
    · rfl
    split
    · dsimp only
      exact terminate_curr ..
    split
    · dsimp only
      exact terminate_curr ..
    · rfl
  · exact sysExec_curr ..
  · exact needFs_curr (kfsDup_run k _).wakens
  · rfl
  · obtain ⟨mem, hm⟩ := ksbrk_face k m.a0
    have hcurr := curr_of_face hm
    exact hcurr
  · rfl
  · exact needFs_curr (kfsOpen_run trivial trivial k a).wakens
  · exact sysWrite_curr ..
  · exact needFs_curr (kfsClose_run trivial k _).wakens
  · rfl
  · simp only [sysSigreturn]
    split <;> rfl
  · simp only [sysTtyraw]
    split <;> rfl
  · simp only [sysSelect]
    split_ifs <;> rfl
  · simp only [answer]
    split <;> rfl
  · rfl

/-! ## Steps -/

/-- Where the next selection starts: behind the process that runs or is about to. -/
def rotation (k : Kernel) : Slot :=
  match k.phase with
  | .leaving (some next) => next
  | _ => k.curr

/-- The event calls `pick`. -/
def selects (k : Kernel) : Event → Bool
  | .handler a =>
    match k.phase with
    | .entered .tick => true
    | .entered .syscall =>
      (k.proc k.curr).killed ||
        match (k.dispatch (k.mailof k.curr) a).2 with
        | .block _ => true
        | _ => false
    | _ => false
  | _ => false

theorem rotation_eq_of_ctl (h : k'.ctl = k.ctl) : k'.rotation = k.rotation := by
  simp only [ctl, Control.mk.injEq] at h
  rw [rotation, rotation, h.1, h.2.1]

/-- A selection is made behind the rotation point, and nothing else moves it. -/
theorem step_rotation (h : k.step e = some k') :
    k.selects e = false ∧ k'.rotation = k.rotation ∨
      k.selects e = true ∧ ∃ m : Kernel, k' = m.swtch ∧ m.curr = k.rotation := by
  have henter : ∀ (k : Kernel) (e : Entry), (k.kenter e).rotation = k.curr := by
    intro k e
    obtain ⟨k1, hk1, heq⟩ := kenter_face k e
    rw [heq]
    rcases hk1 with rfl | ⟨rfl, _⟩
    · rfl
    · have hcurr := curr_of_face (kfsStart_face k)
      generalize k.kfsStart = k1 at hcurr ⊢
      exact hcurr
  have hbg : ∀ {k'}, BgTrail False (fun _ => True) k k' → k'.rotation = k.rotation :=
    fun h => rotation_eq_of_ctl h.ctl
  cases step_cases h with
  | user => exact .inl ⟨rfl, rotation_eq_of_ctl rfl⟩
  | trap m hp =>
    refine .inl ⟨rfl, (henter _ _).trans ?_⟩
    rw [rotation, hp]
    rfl
  | tick hp =>
    refine .inl ⟨rfl, (henter _ _).trans ?_⟩
    rw [rotation, hp]
  | fire f => exact .inl ⟨rfl, hbg (fireIncome_trail False.elim)⟩
  | drain rx => exact .inl ⟨rfl, hbg (pollFg_trail False.elim)⟩
  | syscall a hp =>
    have hrot : k.rotation = k.curr := by rw [rotation, hp]
    have hcurr := dispatch_curr k (k.mailof k.curr) a
    rw [hrot, selects, hp, dmaKsyscall]
    by_cases hk : (k.proc k.curr).killed
    · rw [if_pos hk]
      exact .inr ⟨by simp [hk], _, rfl, terminate_curr ..⟩
    · rw [if_neg hk]
      generalize k.dispatch (k.mailof k.curr) a = r at hcurr ⊢
      obtain ⟨m, o⟩ := r
      cases o with
      | ret v | resume => exact .inl ⟨by simp [hk], hcurr⟩
      | block v =>
        refine .inr ⟨by simp, _, rfl, Eq.trans ?_ hcurr⟩
        split <;> rfl
  | ktick a hp =>
    have hrot : k.rotation = k.curr := by rw [rotation, hp]
    rw [hrot, selects, hp, dmaKtick]
    refine .inr ⟨rfl, ?_⟩
    split_ifs
    · exact ⟨k, rfl, rfl⟩
    · exact ⟨_, rfl, terminate_curr ..⟩
    · exact ⟨_, rfl, rfl⟩
    · exact ⟨k, rfl, rfl⟩
  | publish next hp =>
    refine .inl ⟨rfl, ?_⟩
    rw [rotation, rotation, hp]
    rfl
  | park hp =>
    refine .inl ⟨rfl, ?_⟩
    rw [rotation, rotation, hp]
  | leave hp =>
    refine .inl ⟨rfl, ?_⟩
    rw [rotation, rotation, hp]

/-! ## Runs -/

/-- What a call of `pick` that led to this state returned. -/
def chosen (k : Kernel) : Option Slot :=
  match k.phase with
  | .leaving next => next
  | _ => none

/-- What the calls of `pick` return while the events happen. -/
def selections : Kernel → List Event → List (Option Slot)
  | _, [] => []
  | k, e :: es =>
    match k.step e with
    | none => []
    | some k' => if k.selects e then k'.chosen :: selections k' es else selections k' es

/-- Process `p` waits in every state that the events lead through. -/
def keepsWaiting (p : Slot) : Kernel → List Event → Bool
  | k, [] => decide (k.Waits p)
  | k, e :: es => decide (k.Waits p) && (k.step e).all (keepsWaiting p · es)

theorem keepsWaiting_waits {es : List Event} (h : keepsWaiting p k es = true) : k.Waits p := by
  cases es with
  | nil => simpa [keepsWaiting] using h
  | cons e es =>
    simp only [keepsWaiting, Bool.and_eq_true, decide_eq_true_eq] at h
    exact h.1

/-- If fewer than `n` slots are ahead of `p`, it is among the next `n` selections. -/
theorem selected_of_ahead {es : List Event} {n : Nat} (h : keepsWaiting p k es = true)
    (hn : ahead k.rotation p < n) (hlen : n ≤ (k.selections es).length) :
    some p ∈ (k.selections es).take n := by
  induction es generalizing k n with
  | nil => simp [selections] at hlen; omega
  | cons e es ih =>
    simp only [keepsWaiting, Bool.and_eq_true] at h
    rw [selections] at hlen ⊢
    cases hs : k.step e with
    | none => simp [hs] at hlen; omega
    | some k' =>
      have hrest : keepsWaiting p k' es = true := by simpa [hs] using h.2
      simp only [hs] at hlen ⊢
      rcases step_rotation hs with ⟨hsel, hrot⟩ | ⟨hsel, m, rfl, hm⟩
      · rw [hsel] at hlen ⊢
        exact ih hrest (hrot ▸ hn) hlen
      · obtain ⟨n, rfl⟩ := Nat.exists_eq_succ_of_ne_zero (Nat.ne_of_gt (Nat.zero_lt_of_lt hn))
        -- passing the turn leaves the process table as it is
        have hw' := keepsWaiting_waits hrest
        have hw : m.Waits p := hw'
        obtain ⟨q, hq, _, hqp⟩ := pick_of_waits hw
        have hpick : m.swtch.chosen = some q := hq
        simp only [hsel, if_true, hpick, List.length_cons, List.take_succ_cons] at hlen ⊢
        rcases hqp with rfl | hlt
        · exact .head _
        · have hrot : m.swtch.rotation = q := by
            rw [rotation, swtch, hq]
          refine .tail _ (ih hrest ?_ (by omega))
          rw [hrot]
          rw [hm] at hlt
          omega

/-- The scheduler is fair: whatever happens meanwhile, a process that stays
    RUNNABLE is selected by one of the next `nproc` calls of `pick`, and the init
    filler is selected only when no other process is RUNNABLE. -/
theorem round_robin (k : Kernel) (es : List Event) :
    (∀ p, keepsWaiting p k es = true → nproc ≤ (k.selections es).length →
      some p ∈ (k.selections es).take nproc) ∧
    ∀ e k' q, k.step e = some k' → k.selects e = true → k'.chosen = some q →
      (k'.proc q).pid = k'.initpid →
      ∀ i, (k'.proc i).state = .runnable → (k'.proc i).pid = k'.initpid := by
  refine ⟨fun p h hlen => selected_of_ahead h (p - k.rotation - 1).isLt hlen, ?_⟩
  intro e k' q hs hsel hq hpid i hi
  by_contra hne
  rcases step_rotation hs with ⟨hno, _⟩ | ⟨_, m, rfl, _⟩
  · rw [hno] at hsel
    cases hsel
  · have hw : m.Waits i := ⟨hi, hne⟩
    obtain ⟨q', hq', hwq, _⟩ := pick_of_waits hw
    have heq : q' = q := Option.some.inj (hq'.symm.trans hq)
    exact hwq.2 (heq ▸ hpid)

/-- Two programs that compute and the init filler. -/
def twoAndFiller : Config where
  prog i := if i < 3 then some { pid := BitVec.ofNat 32 (i.val + 1) } else none
  curr := 0
  loaded := by decide
  nextpid := 4
  initpid := 3

/-- They take turns, and the filler never runs. -/
theorem round_robin_two_and_filler :
    let es := (List.replicate 8 (Event.quantum [])).flatten
    keepsWaiting 1 twoAndFiller.boot es = true ∧
      twoAndFiller.boot.selections es =
        [some 1, some 0, some 1, some 0, some 1, some 0, some 1, some 0] ∧
      some 1 ∈ (twoAndFiller.boot.selections es).take nproc := by
  have hw : keepsWaiting 1 twoAndFiller.boot (List.replicate 8 (Event.quantum [])).flatten = true := by
    decide +kernel
  have hsel : twoAndFiller.boot.selections (List.replicate 8 (Event.quantum [])).flatten =
      [some 1, some 0, some 1, some 0, some 1, some 0, some 1, some 0] := by
    decide +kernel
  refine ⟨hw, hsel, (round_robin _ _).1 1 hw ?_⟩
  rw [hsel]
  decide

end Kernel

end DmaCpu.Xv6
