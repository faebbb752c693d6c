-- SUMMARY: The reference counts of open files, in every reachable state.
import DmaCpu.Lib.Refs
import DmaCpu.Xv6.Acts
import DmaCpu.Xv6.Boot

/-!
# Open files

Every descriptor of a slot counts as one reference to its file, and a slot that
is not in use has no descriptors. `kfs_start` gives descriptors to all slots, so
this is so after it only if the loader has filled all of them.
-/
namespace DmaCpu.Xv6

open Function List Finset

namespace Files

variable (x : Files) (f : FileId) (p : Slot × Fd) {g : FileId}

def setRef (n : Nat) : Files := { x with ref := update x.ref f n }

def setOwn (o : Option FileId) : Files := { x with own := update x.own p o }

@[simp] theorem setOwn_ref (o : Option FileId) : (x.setOwn p o).ref = x.ref := rfl

@[simp] theorem setRef_ref_self (n : Nat) : (x.setRef f n).ref f = n := update_self ..

theorem setRef_ref_of_ne (h : g ≠ f) (n : Nat) : (x.setRef f n).ref g = x.ref g :=
  update_of_ne h ..

@[simp] theorem setOwn_own_self (o : Option FileId) : (x.setOwn p o).own p = o :=
  update_self ..

theorem setOwn_own_of_ne {q : Slot × Fd} (h : q ≠ p) (o : Option FileId) :
    (x.setOwn p o).own q = x.own q :=
  update_of_ne h ..

theorem setRef_setRef (n m : Nat) : (x.setRef f n).setRef f m = x.setRef f m := by
  simp [setRef]

theorem setRef_comm (h : f ≠ g) (n m : Nat) :
    (x.setRef f n).setRef g m = (x.setRef g m).setRef f n := by
  simp only [setRef]
  rw [update_comm h]

theorem setOwn_setOwn (o o' : Option FileId) : (x.setOwn p o).setOwn p o' = x.setOwn p o' := by
  simp [setOwn]

variable {x f p}

theorem setRef_eq_self {n : Nat} (h : x.ref f = n) : x.setRef f n = x := by
  rw [setRef, ← h, update_eq_self]

theorem setOwn_eq_self {o : Option FileId} (h : x.own p = o) : x.setOwn p o = x := by
  rw [setOwn, ← h, update_eq_self]

/-- Every descriptor is counted, and slots that are not in use have none. -/
structure Ok (x : Files) (live : Slot → Prop) : Prop where
  exact : Refs.Exact x.ref x.own
  dead : ∀ i, ¬live i → ∀ fd, x.own (i, fd) = none

namespace Ok

variable {live : Slot → Prop} {i : Slot} {fd : Fd}

theorem mono (h : x.Ok live) {live' : Slot → Prop} (hl : ∀ i, live i → live' i) : x.Ok live' :=
  ⟨h.exact, fun i hi => h.dead i (mt (hl i) hi)⟩

theorem pos (h : x.Ok live) (hp : x.own p = some f) : 0 < x.ref f := h.exact.pos hp

/-- A descriptor gives its reference back. -/
theorem release (h : x.Ok live) (hp : x.own p = some f) :
    ((x.setRef f (x.ref f - 1)).setOwn p none).Ok live where
  exact := h.exact.release hp
  dead j hj fd := by
    by_cases hx : (j, fd) = p
    · rw [hx]
      exact setOwn_own_self ..
    · rw [setOwn_own_of_ne _ _ hx]
      exact h.dead j hj fd

/-- A live process takes a reference in a free descriptor. -/
theorem acquire (h : x.Ok live) (hi : live i) (hfd : x.own (i, fd) = none) (f : FileId) :
    ((x.setRef f (x.ref f + 1)).setOwn (i, fd) (some f)).Ok live where
  exact := h.exact.acquire hfd f
  dead j hj d := by
    have hne : (j, d) ≠ (i, fd) := by
      rintro ⟨⟩
      exact hj hi
    rw [setOwn_own_of_ne _ _ hne]
    exact h.dead j hj d

end Ok

end Files

variable {k k' : Kernel}

namespace Kernel

/-! ## file.c -/

theorem setOfile_files (k : Kernel) (i : Slot) (fd : Fd) (o : Option FileId) :
    (k.setOfile i fd o).files = k.files.setOwn (i, fd) o := by
  have hown : (k.setOfile i fd o).files.own = update k.files.own (i, fd) o := by
    funext ⟨j, x⟩
    by_cases hj : j = i
    · subst hj
      by_cases hx : x = fd
      · subst hx
        simp [files, setOfile]
      · simp [files, setOfile, hx]
    · simp [files, setOfile, hj]
  rw [Files.setOwn, ← hown]
  rfl

theorem setFile_files (k : Kernel) (f : FileId) (x : File) :
    (k.setFile f x).files = k.files.setRef f x.ref := by
  have href : (k.setFile f x).files.ref = update k.files.ref f x.ref := by
    funext g
    by_cases hg : g = f
    · subst hg
      simp [files, setFile]
    · simp [files, setFile, hg]
  rw [Files.setRef, ← href]
  rfl

variable {f : FileId}

/-- A new type for a file whose counter stays. -/
theorem setFile_ref_files {x : File} (h : x.ref = (k.ftable f).ref) :
    (k.setFile f x).files = k.files := by
  rw [setFile_files, h]
  exact Files.setRef_eq_self rfl

theorem fileclose_files (h : 0 < k.files.ref f) :
    (k.fileclose f).files = k.files.setRef f (k.files.ref f - 1) := by
  have hpos : ¬(k.ftable f).ref < 1 := Nat.not_lt.mpr h
  simp only [fileclose, if_neg hpos]
  split
  · exact setFile_files k f _
  next hlast =>
    have hzero : k.files.ref f - 1 = 0 := Nat.eq_zero_of_not_pos hlast
    rw [hzero]
    split
    · rw [(Nudges.pipeclose ..).files]
      exact setFile_files k f _
    · exact setFile_files k f _

theorem filedup_files (h : 0 < k.files.ref f) :
    (k.filedup f).files = k.files.setRef f (k.files.ref f + 1) := by
  have hpos : ¬(k.ftable f).ref < 1 := Nat.not_lt.mpr h
  rw [filedup, if_neg hpos]
  exact setFile_files k f _

theorem filealloc_files (h : k.filealloc = some (k', f)) :
    k.files.ref f = 0 ∧ k'.files = k.files.setRef f 1 := by
  simp only [filealloc] at h
  split at h
  · cases h
  next g hg =>
    cases h
    have hzero := find?_some hg
    rw [decide_eq_true_iff] at hzero
    exact ⟨hzero, setFile_files k f _⟩

theorem fdalloc_files {fd : Fd} (h : k.fdalloc f = some (k', fd)) :
    k.files.own (k.curr, fd) = none ∧ k'.files = k.files.setOwn (k.curr, fd) (some f) := by
  simp only [fdalloc] at h
  split at h
  · cases h
  next x hx =>
    cases h
    have hnone := find?_some hx
    rw [Option.isNone_iff_eq_none] at hnone
    exact ⟨hnone, setOfile_files k k.curr fd _⟩

/-! ## Descriptor calls -/

abbrev FilesOk (k : Kernel) : Prop := k.files.Ok k.Live

theorem fdget_eq_some {fd : Word} (h : k.fdget fd = some f) :
    ∃ x : Fd, k.files.own (k.curr, x) = some f := by
  rw [fdget] at h
  split at h
  · exact ⟨_, h⟩
  · cases h

theorem Wakens.filesOk (hw : Wakens k k') (h : k'.files.Ok k.Live) : FilesOk k' :=
  h.mono fun i => (hw.live_iff i).mpr

theorem kfsClose_files (h : FilesOk k) (fd : Word) : (k.kfsClose fd).1.files.Ok k.Live := by
  rw [kfsClose]
  split
  next hfd =>
    split
    · exact h
    next f hf =>
      have hown : k.files.own (k.curr, ⟨fd.toNat, hfd⟩) = some f := hf
      have hset := setOfile_files k k.curr ⟨fd.toNat, hfd⟩ none
      have hpos : 0 < (k.setOfile k.curr ⟨fd.toNat, hfd⟩ none).files.ref f := h.pos hown
      rw [fileclose_files hpos, hset]
      exact h.release hown
  next => exact h

theorem kfsDup_files (h : FilesOk k) (hk : k.Ready k.curr) (fd : Word) :
    (k.kfsDup fd).1.files.Ok k.Live := by
  rw [kfsDup]
  split
  · exact h
  next f hf =>
    obtain ⟨x, hx⟩ := fdget_eq_some hf
    split
    · exact h
    next k1 nfd h1 =>
      obtain ⟨hnone, hfiles⟩ := fdalloc_files h1
      have hpos : 0 < k1.files.ref f := by
        rw [hfiles]
        exact h.pos hx
      rw [filedup_files hpos, hfiles]
      exact h.acquire hk.live hnone f

/-- A file that was just allocated is closed again. -/
theorem fileclose_new {x : Files} (hf : x.ref f = 0)
    (hk : k.files = x.setRef f 1) : (k.fileclose f).files = x := by
  have hone : k.files.ref f = 1 := by rw [hk, Files.setRef_ref_self]
  rw [fileclose_files (by omega), hone, hk, Files.setRef_setRef]
  exact Files.setRef_eq_self hf

theorem kfsOpen_files (h : FilesOk k) (hk : k.Ready k.curr) (a : Answer) :
    (k.kfsOpen a).1.files.Ok k.Live := by
  rw [kfsOpen]
  split
  · exact h
  split
  · exact h
  next k1 f h1 =>
    obtain ⟨hzero, hfiles1⟩ := filealloc_files h1
    split
    · rw [fileclose_new hzero hfiles1]
      exact h
    next k2 fd h2 =>
      obtain ⟨hnone, hfiles2⟩ := fdalloc_files h2
      rw [hfiles1, (filealloc_run trivial h1).wakens.curr] at hnone hfiles2
      have hacq := h.acquire hk.live hnone f
      rw [hzero] at hacq
      rw [setFile_ref_files (by rfl), hfiles2]
      exact hacq

/-- Two of them. -/
theorem fileclose_new_two {x : Files} {f0 f1 : FileId} (hne : f0 ≠ f1) (h0 : x.ref f0 = 0)
    (h1 : x.ref f1 = 0) (hk : k.files = (x.setRef f0 1).setRef f1 1) :
    ((k.fileclose f0).fileclose f1).files = x := by
  rw [Files.setRef_comm _ _ hne] at hk
  exact fileclose_new h1 (fileclose_new ((Files.setRef_ref_of_ne _ _ hne _).trans h0) hk)

theorem pipealloc_files (k : Kernel) :
    (k.pipealloc.2 = none ∧ k.pipealloc.1.files = k.files) ∨
      ∃ f0 f1, k.pipealloc.2 = some (f0, f1) ∧ f0 ≠ f1 ∧ k.files.ref f0 = 0 ∧
        k.files.ref f1 = 0 ∧ k.pipealloc.1.files = (k.files.setRef f0 1).setRef f1 1 := by
  simp only [pipealloc]
  split
  · exact .inl ⟨rfl, rfl⟩
  next pi hpi =>
    split
    · exact .inl ⟨rfl, rfl⟩
    next k1 f0 h1 =>
      obtain ⟨hzero0, hfiles1⟩ := filealloc_files h1
      split
      · exact .inl ⟨rfl, fileclose_new hzero0 hfiles1⟩
      next k2 f1 h2 =>
        obtain ⟨hzero1, hfiles2⟩ := filealloc_files h2
        have hne : f0 ≠ f1 := by
          rintro rfl
          rw [hfiles1, Files.setRef_ref_self] at hzero1
          exact absurd hzero1 Nat.one_ne_zero
        rw [hfiles1] at hzero1 hfiles2
        rw [Files.setRef_ref_of_ne _ _ hne.symm] at hzero1
        have hopen : (k2.openPipe pi).files = k2.files := rfl
        refine .inr ⟨f0, f1, rfl, hne, hzero0, hzero1, ?_⟩
        rw [setFile_ref_files (by rfl), setFile_ref_files (by rfl), hopen, hfiles2]

theorem pokeWord_files (k : Kernel) (i : Slot) (a v : Word) :
    (k.pokeWord i a v).files = k.files := by
  obtain ⟨m, hm⟩ := pokeWord_eq k i a v
  rfl

theorem kfsPipe_files (h : FilesOk k) (hk : k.Ready k.curr) (fdarray : Word) :
    (k.kfsPipe fdarray).1.files.Ok k.Live := by
  have halloc := pipealloc_files k
  have hcurr := (pipealloc_run trivial trivial trivial k).wakens.curr
  unfold kfsPipe
  generalize k.pipealloc = r at halloc hcurr ⊢
  obtain ⟨k1, o⟩ := r
  rcases halloc with ⟨rfl, hf⟩ | ⟨f0, f1, rfl, hne, hz0, hz1, hf⟩
  · rw [hf]
    exact h
  · dsimp only at hf hcurr ⊢
    split
    · rw [fileclose_new_two hne hz0 hz1 hf]
      exact h
    next k2 fd0 h2 =>
      obtain ⟨hnone0, hfiles2⟩ := fdalloc_files h2
      have hcurr2 := (fdalloc_run h2).wakens.curr.trans hcurr
      rw [hf, hcurr] at hnone0 hfiles2
      split
      · rw [fileclose_new_two hne hz0 hz1]
        · exact h
        · rw [setOfile_files, hcurr2, hfiles2, Files.setOwn_setOwn]
          exact Files.setOwn_eq_self hnone0
      next k3 fd1 h3 =>
        obtain ⟨hnone1, hfiles3⟩ := fdalloc_files h3
        rw [hfiles2, hcurr2] at hnone1 hfiles3
        -- the two descriptors take their references one after the other
        have hacq := (h.acquire hk.live hnone0 f0).acquire hk.live hnone1 f1
        rw [Files.setOwn_ref, hz0, Files.setRef_ref_of_ne _ _ hne.symm, hz1] at hacq
        rw [pokeWord_files, pokeWord_files, hfiles3]
        exact hacq

/-! ## Processes that come and go -/

variable {live : Slot → Prop}

/-- The child's descriptors refer to the parent's files. -/
theorem kfsForkcopy_files (h : k.files.Ok live) {p c : Slot} (hc : live c)
    (hnone : ∀ fd, k.files.own (c, fd) = none) : (k.kfsForkcopy p c).files.Ok live := by
  have hfold {copy : Kernel → Fd → Kernel}
      (hnot : ∀ k fd, k.ofile p fd = none → copy k fd = k.setOfile c fd none)
      (hcopy : ∀ k fd f, k.ofile p fd = some f → copy k fd = (k.filedup f).setOfile c fd (some f)) :
      ∀ (l : List Fd) (k : Kernel), l.Nodup → k.files.Ok live →
        (∀ fd ∈ l, k.files.own (c, fd) = none) → (l.foldl copy k).files.Ok live := by
    intro l
    induction l with
    | nil => exact fun k _ h _ => h
    | cons fd l ih =>
      intro k hd h hnone
      obtain ⟨hfd, hl⟩ := nodup_cons.mp hd
      have hmine := hnone fd (mem_cons_self ..)
      have hrest : ∀ o : Option FileId, ∀ x ∈ l, ∀ y : Files, y.own = k.files.own →
          (y.setOwn (c, fd) o).own (c, x) = none := by
        intro o x hx y hy
        have hxfd : (c, x) ≠ (c, fd) := fun he => hfd ((Prod.mk.inj he).2 ▸ hx)
        rw [Files.setOwn_own_of_ne _ _ hxfd, hy]
        exact hnone x (mem_cons_of_mem fd hx)
      rw [foldl_cons]
      cases hf : k.ofile p fd with
      | none =>
        rw [hnot k fd hf]
        refine ih _ hl ?_ fun x hx => ?_
        · rw [setOfile_files, Files.setOwn_eq_self hmine]
          exact h
        · rw [setOfile_files]
          exact hrest none x hx _ rfl
      | some f =>
        have hown : k.files.own (p, fd) = some f := hf
        have hdup := filedup_files (h.pos hown)
        rw [hcopy k fd f hf]
        refine ih _ hl ?_ fun x hx => ?_
        · rw [setOfile_files, hdup]
          exact h.acquire hc hmine f
        · rw [setOfile_files, hdup]
          exact hrest (some f) x hx _ rfl
  refine hfold (fun k fd hf => ?_) (fun k fd f hf => ?_) _ k (nodup_finRange _) h fun fd _ => hnone fd
  · simp only [hf]
  · simp only [hf]

/-- Closing every descriptor of a slot. -/
theorem kfsExit_files (h : k.files.Ok live) (i : Slot) :
    (k.kfsExit i).files.Ok fun j => live j ∧ j ≠ i := by
  have hfold {close : Kernel → Fd → Kernel} (hnot : ∀ k fd, k.ofile i fd = none → close k fd = k)
      (hclose : ∀ k fd f, k.ofile i fd = some f → close k fd = (k.fileclose f).setOfile i fd none) :
      ∀ (l : List Fd) (k : Kernel), k.files.Ok live → ∀ k', k' = l.foldl close k →
        k'.files.Ok live ∧ ∀ fd, fd ∈ l ∨ k.files.own (i, fd) = none → k'.files.own (i, fd) = none := by
    intro l
    induction l with
    | nil =>
      rintro k h _ rfl
      exact ⟨h, fun fd hfd => hfd.resolve_left (not_mem_nil)⟩
    | cons d l ih =>
      rintro k h k' hk'
      rw [foldl_cons] at hk'
      cases hf : k.ofile i d with
      | none =>
        rw [hnot k d hf] at hk'
        obtain ⟨hok, hown⟩ := ih k h k' hk'
        refine ⟨hok, fun fd hfd => hown fd ?_⟩
        rcases hfd with hfd | hfd
        · rcases mem_cons.mp hfd with rfl | hfd
          · exact .inr hf
          · exact .inl hfd
        · exact .inr hfd
      | some f =>
        rw [hclose k d f hf] at hk'
        have hd : k.files.own (i, d) = some f := hf
        have hfiles : ((k.fileclose f).setOfile i d none).files =
            (k.files.setRef f (k.files.ref f - 1)).setOwn (i, d) none := by
          rw [setOfile_files, fileclose_files (h.pos hd)]
        obtain ⟨hok, hown⟩ := ih _ (hfiles ▸ h.release hd) k' hk'
        refine ⟨hok, fun fd hfd => hown fd ?_⟩
        by_cases heq : fd = d
        · subst heq
          exact .inr (by rw [hfiles, Files.setOwn_own_self])
        · rcases hfd with hfd | hfd
          · exact .inl ((mem_cons.mp hfd).resolve_left heq)
          · have hne : (i, fd) ≠ (i, d) := fun he => heq (Prod.mk.inj he).2
            exact .inr (by rw [hfiles, Files.setOwn_own_of_ne _ _ hne]; exact hfd)
  have hexit := hfold (fun k fd hf => by simp only [hf]) (fun k fd f hf => by simp only [hf])
    (finRange nofile) k h (k.kfsExit i) rfl
  obtain ⟨hok, hown⟩ := hexit
  refine ⟨hok.exact, fun j hj fd => ?_⟩
  by_cases hji : j = i
  · subst hji
    exact hown fd (.inl (mem_finRange fd))
  · exact hok.dead j (fun hl => hj ⟨hl, hji⟩) fd

theorem consoleFd_files (h : k.files.Ok live) {i : Slot} {fd : Fd} (hi : live i)
    (hnone : k.files.own (i, fd) = none) : (k.consoleFd i fd).files.Ok live ∧
      ∀ p, p ≠ (i, fd) → (k.consoleFd i fd).files.own p = k.files.own p := by
  rw [consoleFd]
  split
  · exact ⟨h, fun _ _ => rfl⟩
  next k1 f h1 =>
    obtain ⟨hzero, hfiles⟩ := filealloc_files h1
    have hacq := h.acquire hi hnone f
    rw [hzero] at hacq
    rw [setOfile_files, setFile_ref_files (by rfl), hfiles]
    exact ⟨hacq, fun p hp => Files.setOwn_own_of_ne _ _ hp _⟩

/-- The descriptors that `kfs_start` hands out, in order. -/
def startFds : List (Slot × Fd) :=
  (finRange nproc).flatMap fun i => [(0 : Fd), 1, 2].map fun fd => (i, fd)

theorem nodup_startFds : startFds.Nodup := by decide

theorem kfsStart_files_eq :
    k.kfsStart.files = (startFds.foldl (fun k p => k.consoleFd p.1 p.2) k).files := by
  have hready : ∀ k : Kernel, { k with fsready := true }.files = k.files := fun _ => rfl
  rw [kfsStart, hready, startFds, foldl_flatMap]
  simp

/-- `kfs_start` counts the descriptors that it hands out. -/
theorem kfsStart_files (h : k.files.Ok fun _ => True)
    (hnone : ∀ p, k.files.own p = none) : k.kfsStart.files.Ok fun _ => True := by
  have hfold : ∀ (l : List (Slot × Fd)) (k : Kernel), l.Nodup → (k.files.Ok fun _ => True) →
      (∀ p ∈ l, k.files.own p = none) →
      (l.foldl (fun k p => k.consoleFd p.1 p.2) k).files.Ok fun _ => True := by
    intro l
    induction l with
    | nil => exact fun k _ h _ => h
    | cons p l ih =>
      intro k hd h hnone
      obtain ⟨hp, hl⟩ := nodup_cons.mp hd
      obtain ⟨hok, hown⟩ := consoleFd_files h trivial (hnone p (mem_cons_self ..))
      refine ih _ hl hok fun q hq => ?_
      rw [hown q fun he : q = p => hp (he ▸ hq)]
      exact hnone q (mem_cons_of_mem p hq)
  rw [kfsStart_files_eq]
  exact hfold _ k nodup_startFds h fun p _ => hnone p

theorem terminate_filesOk (h : FilesOk k) (hfs : k.fsready = true) (i : Slot)
    (status : Word) : FilesOk (k.terminate i status) := by
  have hdying : (k.dying i status).files.Ok k.Live := by
    rw [dying_files]
    exact h
  have hexit := kfsExit_files hdying i
  have hfiles := terminate_files k i status
  rw [if_pos hfs] at hfiles
  rw [FilesOk, hfiles]
  obtain ⟨m, hm⟩ := terminate_ends k i status
  refine hexit.mono fun j ⟨hlive, hne⟩ => ?_
  rw [Live, hm.others j hne]
  exact ((hm.eases.slot j).live_iff).mpr hlive

theorem fork_filesOk (h : FilesOk k) {c : Slot} (hc : (k.proc c).state = .unused) :
    FilesOk ((k.kfsForkcopy k.curr c).forkInto c) := by
  have hdead : ¬k.Live c := fun hl => hl.1 hc
  have hmore : k.files.Ok fun i => k.Live i ∨ i = c := h.mono fun _ => .inl
  have hcopy : (k.kfsForkcopy k.curr c).files.Ok fun i => k.Live i ∨ i = c :=
    kfsForkcopy_files hmore (.inr rfl) (h.dead c hdead)
  have hw := (kfsForkcopy_run k k.curr c).wakens
  generalize k.kfsForkcopy k.curr c = k1 at hcopy hw ⊢
  refine hcopy.mono fun i hi => ?_
  by_cases hcurr : i = k1.curr
  · simp [Live, forkInto, setProc, hcurr]
  by_cases hic : i = c
  · subst hic
    simp [Live, forkInto, setProc, hcurr]
  · have hlive := (hw.live_iff i).mpr (hi.resolve_right hic)
    simpa [Live, forkInto, setProc, hcurr, hic] using hlive

/-! ## Events -/

variable {A : Prop}

theorem Act.filesOk (ha : Act A k k') (hfs : k.fsready = true) (h : FilesOk k) : FilesOk k' := by
  -- a state whose files are the same, and where nobody has died
  have hsame : ∀ {k' : Kernel}, k'.files = k.files → (∀ i, k.Live i → k'.Live i) → FilesOk k' :=
    fun hf hl => Files.Ok.mono (hf ▸ h) hl
  have hset : ∀ {i : Slot} {p : Proc}, (k.Live i → p.state ≠ .unused ∧ p.state ≠ .zombie) →
      FilesOk (k.setProc i p) := by
    intro i p hp
    refine hsame rfl fun j hj => ?_
    by_cases hji : j = i
    · subst hji
      simpa [Live, setProc] using hp hj
    · simpa [Live, setProc, hji] using hj
  cases ha with
  | nudges hn => exact hsame hn.files fun i => (hn.live_iff i).mpr
  | terminate status _ => exact terminate_filesOk h hfs _ status
  | turn hid hf _ => exact hsame hf fun i => (live_iff_of_ident (congrFun hid i)).mpr
  | run _ hs => exact hset fun _ => by rcases hs with rfl | rfl <;> simp
  | sleep c _ => exact hset fun _ => by simp
  | reap hz _ => exact hset fun hl => absurd hz hl.2
  | fork _ hc =>
    rw [copied, if_pos hfs]
    exact fork_filesOk h hc
  | close fd _ => exact (kfsClose_run trivial k fd).wakens.filesOk (kfsClose_files h fd)
  | dup fd hk => exact (kfsDup_run k fd).wakens.filesOk (kfsDup_files h hk fd)
  | «open» a _ hk => exact (kfsOpen_run trivial trivial k a).wakens.filesOk (kfsOpen_files h hk a)
  | pipe fdarray _ hk =>
    exact (kfsPipe_run trivial trivial trivial k fdarray).wakens.filesOk (kfsPipe_files h hk fdarray)
  | start hoff _ => exact absurd (hoff.symm.trans hfs) Bool.false_ne_true

/-- Only `kfs_start` changes whether the file layer is there. -/
theorem Act.fsready (h : Act A k k') : k'.dmaDisk = k.dmaDisk ∧
      (k'.fsready = k.fsready ∨ k.fsready = false ∧ k.dmaDisk = true) := by
  have henv : ∀ {k' : Kernel}, k'.env = k.env → k'.dmaDisk = k.dmaDisk ∧
      (k'.fsready = k.fsready ∨ k.fsready = false ∧ k.dmaDisk = true) :=
    fun h => ⟨congrArg Env.dmaDisk h, .inl (congrArg Env.fsready h)⟩
  cases h with
  | nudges hn => exact henv hn.env
  | terminate status _ => exact henv (terminate_env k _ status)
  | turn _ _ he => exact ⟨congrArg Env.dmaDisk he, .inl (congrArg Env.fsready he)⟩
  | run | sleep | reap => exact ⟨rfl, .inl rfl⟩
  | @fork c _ hc =>
    have hcopy : Wakens k (k.copied c) := by
      rw [copied]
      split
      · exact (kfsForkcopy_run ..).wakens
      · exact .refl k
    generalize k.copied c = k1 at hcopy ⊢
    have hk1 : k1.dmaDisk = k.dmaDisk ∧ (k1.fsready = k.fsready ∨ _) := henv hcopy.env
    exact hk1
  | close fd _ => exact henv (kfsClose_run trivial k fd).wakens.env
  | dup fd _ => exact henv (kfsDup_run k fd).wakens.env
  | «open» a _ _ => exact henv (kfsOpen_run trivial trivial k a).wakens.env
  | pipe fdarray _ _ => exact henv (kfsPipe_run trivial trivial trivial k fdarray).wakens.env
  | start hoff hd => exact ⟨kfsStart_inv dmaDisk (fun _ _ _ => rfl) (fun _ _ _ _ => rfl) (fun _ => rfl)
      (fun _ => rfl) k, .inr ⟨hoff, hd⟩⟩

/-! ## Entries that nobody opens -/

/-- Free entries of the file table stay free. -/
structure Spares (k k' : Kernel) : Prop where
  free : ∀ f, k.files.ref f = 0 → k'.files.ref f = 0

theorem Spares.of_ref (h : k'.files.ref = k.files.ref) : Spares k k' :=
  ⟨fun f hf => (congrFun h f).trans hf⟩

theorem Spares.of_eq (h : k'.files = k.files) : Spares k k' :=
  .of_ref (congrArg Files.ref h)

theorem Spares.trans {k'' : Kernel} (h : Spares k k') (h' : Spares k' k'') : Spares k k'' :=
  ⟨fun f hf => h'.free f (h.free f hf)⟩

theorem FileRun.spares (h : FileRun True False True k k') : Spares k k' := by
  induction h with
  | refl => exact .of_eq rfl
  | tail _ hs ih =>
    refine ih.trans ?_
    cases hs with
    | file f x hx =>
      refine ⟨fun g hg => ?_⟩
      simp only [Kernel.files, setFile, update_apply]
      split
      next heq => exact hx.resolve_left id (heq ▸ hg)
      next => exact hg
    | ofile | panic | openPipe => exact .of_ref rfl
    | close => exact .of_eq (Nudges.pipeclose ..).files
    | poke => exact .of_eq (pokeWord_files ..)

theorem terminate_spares (k : Kernel) (i : Slot) (status : Word) :
    Spares k (k.terminate i status) := by
  have hdying : Spares k (k.dying i status) := .of_eq (dying_files k i status)
  refine Spares.trans ?_ (.of_eq (terminate_files k i status))
  split
  · exact hdying.trans (kfsExit_run trivial _ i).spares
  · exact hdying

/-- Without `open` and `pipe`. -/
theorem Act.spares (h : Act False k k') (hfs : k.fsready = true) : Spares k k' := by
  cases h with
  | nudges hn => exact .of_eq hn.files
  | terminate status _ => exact terminate_spares k _ status
  | turn _ hf _ => exact .of_eq hf
  | run | sleep | reap => exact .of_eq rfl
  | @fork c _ hc =>
    rw [copied, if_pos hfs]
    exact (kfsForkcopy_run k k.curr c).spares.trans (.of_eq rfl)
  | close fd _ => exact (kfsClose_run trivial k fd).spares
  | dup fd _ => exact (kfsDup_run k fd).spares
  | «open» _ hA _ => exact hA.elim
  | pipe _ hA _ => exact hA.elim
  | start hoff _ => exact absurd (hoff.symm.trans hfs) Bool.false_ne_true

/-! ## Runs -/

theorem ActRun.fsready (h : ActRun A k k') (hfs : k.fsready = true) : k'.fsready = true := by
  induction h with
  | refl => exact hfs
  | tail _ ha ih =>
    rcases ha.fsready.2 with heq | hoff
    · exact heq.trans ih
    · exact nomatch hoff.1.symm.trans ih

theorem ActRun.filesOk (h : ActRun A k k') (hfs : k.fsready = true) (hok : FilesOk k) :
    FilesOk k' := by
  induction h with
  | refl => exact hok
  | tail hs ha ih => exact ha.filesOk (ActRun.fsready hs hfs) ih

theorem ActRun.spares (h : ActRun False k k') (hfs : k.fsready = true) : Spares k k' := by
  induction h with
  | refl => exact .of_eq rfl
  | tail hs ha ih => exact ih.trans (ha.spares (ActRun.fsready hs hfs))

/-- Without a disk there is never a file layer. -/
theorem ActRun.no_fs (h : ActRun A k k') (hfs : k.fsready = false)
    (hd : k.dmaDisk = false) : k'.fsready = false ∧ k'.dmaDisk = false := by
  induction h with
  | refl => exact ⟨hfs, hd⟩
  | tail _ ha ih =>
    obtain ⟨hdisk, hready⟩ := ha.fsready
    refine ⟨?_, hdisk.trans ih.2⟩
    rcases hready with heq | hon
    · exact heq.trans ih.1
    · exact nomatch hon.2.symm.trans ih.2

/-- Before `kfs_start`. -/
structure Fresh (k : Kernel) : Prop where
  phase : k.phase = .user
  live : ∀ i, k.Live i
  files : k.files = ⟨fun _ => 0, fun _ => none⟩

theorem kfsStart_fsready (k : Kernel) : k.kfsStart.fsready = true := by
  rfl

theorem Fresh.start (h : Fresh k) : FilesOk k.kfsStart := by
  have hempty : k.files.Ok fun _ => True := by
    rw [h.files]
    exact ⟨Refs.exact_empty, fun _ _ _ => rfl⟩
  refine (kfsStart_files hempty fun p => by rw [h.files]).mono fun i _ => ?_
  exact (live_iff_of_ident (congrFun (kfsStart_ident k) i)).mpr (h.live i)

/-- The invariant of a run from a boot that fills every slot. -/
structure FilesInv (k : Kernel) : Prop where
  turn : k.Turn
  fresh : k.fsready = false → k.dmaDisk = true → Fresh k
  ok : k.fsready = true → FilesOk k

theorem FilesInv.step {e : Event} (h : FilesInv k) (hs : k.step e = some k') : FilesInv k' := by
  have hacts : ActRun True k k' := step_acts h.turn (fun _ => trivial) hs
  have hturn := h.turn.step hs
  cases hfs : k.fsready with
  | true =>
    have hfs' := hacts.fsready hfs
    exact ⟨hturn, fun hoff => absurd (hoff.symm.trans hfs') Bool.false_ne_true, fun _ => hacts.filesOk hfs (h.ok hfs)⟩
  | false =>
    cases hd : k.dmaDisk with
    | false =>
      obtain ⟨hfs', hd'⟩ := hacts.no_fs hfs hd
      exact ⟨hturn, fun _ hon => absurd (hd'.symm.trans hon) Bool.false_ne_true,
        fun hon => absurd (hfs'.symm.trans hon) Bool.false_ne_true⟩
    | true =>
      have hfresh := h.fresh hfs hd
      have hphase := hfresh.phase
      -- the first entry runs `kfs_start`
      have henter : ∀ (k : Kernel) (e : Entry), k.fsready = false → k.dmaDisk = true → Fresh k →
          (k.kenter e).fsready = true ∧ FilesOk (k.kenter e) := by
        intro k e hfs hd hfresh
        have hcond : (!k.fsready && k.dmaDisk) = true := by rw [hfs, hd]; rfl
        have hok := hfresh.start
        have hon := kfsStart_fsready k
        rw [kenter, if_pos hcond]
        generalize k.kfsStart = k1 at hok hon ⊢
        exact ⟨hon, hok⟩
      cases step_cases hs with
      | user mem r0 _ _ =>
        exact ⟨hturn, fun _ _ => ⟨hphase, hfresh.live, hfresh.files⟩,
          fun hon => absurd (hfs.symm.trans hon) Bool.false_ne_true⟩
      | trap m _ _ =>
        have hfill : Fresh (k.fillMail m) := ⟨hphase, hfresh.live, hfresh.files⟩
        obtain ⟨hon, hok⟩ := henter (k.fillMail m) .syscall hfs hd hfill
        exact ⟨hturn, fun hoff => absurd (hoff.symm.trans hon) Bool.false_ne_true, fun _ => hok⟩
      | tick _ =>
        obtain ⟨hon, hok⟩ := henter k .tick hfs hd hfresh
        exact ⟨hturn, fun hoff => absurd (hoff.symm.trans hon) Bool.false_ne_true, fun _ => hok⟩
      | fire f hp => exact absurd hphase hp
      | drain rx hp | syscall a hp | ktick a hp | publish next hp | park hp | leave hp =>
        cases hphase.symm.trans hp

/-! ## What the counters say -/

/-- The number of descriptors of live processes that refer to file `f`. -/
def liveRefs (k : Kernel) (f : FileId) : Nat :=
  (univ.filter fun x : Slot × Fd => k.Live x.1 ∧ k.ofile x.1 x.2 = some f).card

/-- The counter of every entry of the file table is the number of descriptors of live
    processes that refer to it, so that it is free exactly when none of them reaches it. -/
structure FilesExact (k : Kernel) : Prop where
  ref : ∀ f, (k.ftable f).ref = k.liveRefs f
  free : ∀ f, (k.ftable f).ref = 0 ↔ ∀ i fd, k.Live i → k.ofile i fd ≠ some f

theorem FilesOk.filesExact (h : FilesOk k) : FilesExact k := by
  have hlive : ∀ x : Slot × Fd, ∀ f, k.ofile x.1 x.2 = some f → k.Live x.1 := by
    intro x f hx
    by_contra hdead
    exact nomatch hx.symm.trans (h.dead x.1 hdead x.2)
  refine ⟨fun f => (h.exact f).trans ?_, fun f => h.exact.eq_zero_iff.trans ?_⟩
  · refine congrArg card (filter_congr fun x _ => ?_)
    exact ⟨fun hx => ⟨hlive x f hx, hx⟩, And.right⟩
  · exact ⟨fun hnone i fd _ => hnone (i, fd), fun hnone x hx => hnone x.1 x.2 (hlive x f hx) hx⟩

/-- A descriptor in a slot that is not in use is counted but not live. -/
theorem not_filesExact (h : Refs.Exact k.files.ref k.files.own) {i : Slot} {fd : Fd}
    (hi : ¬k.Live i) (hown : k.ofile i fd = some f) : ¬FilesExact k := by
  intro hexact
  have hlt : k.liveRefs f < Refs.count k.files.own f := by
    refine card_lt_card (ssubset_iff_of_subset ?_ |>.mpr ⟨(i, fd), ?_, ?_⟩)
    · intro x hx
      rw [Finset.mem_filter] at hx ⊢
      exact ⟨hx.1, hx.2.2⟩
    · rw [Finset.mem_filter]
      exact ⟨mem_univ _, hown⟩
    · rw [Finset.mem_filter]
      exact fun hx => hi hx.2.1
  exact absurd ((hexact.ref f).symm.trans (h f)) (Nat.ne_of_lt hlt)

/-- The number of entries of the file table that are in use. -/
def used (k : Kernel) : Nat := (univ.filter fun f => k.files.ref f ≠ 0).card

/-- A descriptor of `kfs_start` takes one of the entries that are left. -/
theorem consoleFd_used (i : Slot) (fd : Fd) (h : k.used < nfile) :
    (∃ f, (k.consoleFd i fd).files.own (i, fd) = some f) ∧ (k.consoleFd i fd).used ≤ k.used + 1 := by
  rw [consoleFd]
  split
  next hnone =>
    -- some entry is free, so that the search does not fail
    have hall : ∀ f, k.files.ref f ≠ 0 := by
      intro f hf
      simp only [filealloc] at hnone
      split at hnone
      next hfind =>
        exact find?_eq_none.mp hfind f (mem_finRange f) (decide_eq_true hf)
      next => cases hnone
    have hfull : k.used = nfile := by
      rw [used, filter_true_of_mem fun f _ => hall f, card_univ, Fintype.card_fin]
    exact absurd hfull (Nat.ne_of_lt h)
  next k1 f h1 =>
    obtain ⟨hzero, hfiles⟩ := filealloc_files h1
    generalize hk2 : (k1.setFile f { k1.ftable f with
      type := .device, readable := true, writable := true, console := true }).setOfile i fd (some f)
        = k2
    have hfiles2 : k2.files = (k.files.setRef f 1).setOwn (i, fd) (some f) := by
      rw [← hk2, setOfile_files, setFile_ref_files (by rfl), hfiles]
    refine ⟨⟨f, by rw [hfiles2, Files.setOwn_own_self]⟩, ?_⟩
    have hsub : (univ.filter fun g => k2.files.ref g ≠ 0) ⊆
        insert f (univ.filter fun g => k.files.ref g ≠ 0) := by
      intro g hg
      rw [Finset.mem_insert, Finset.mem_filter]
      by_cases hgf : g = f
      · exact .inl hgf
      · rw [Finset.mem_filter, hfiles2, Files.setOwn_ref, Files.setRef_ref_of_ne _ _ hgf] at hg
        exact .inr hg
    exact (card_le_card hsub).trans (card_insert_le ..)

/-- `kfs_start` finds an entry for every descriptor. -/
theorem kfsStart_own (h : k.files = ⟨fun _ => 0, fun _ => none⟩) {p : Slot × Fd}
    (hp : p ∈ startFds) : ∃ f, k.kfsStart.files.own p = some f := by
  have hfold : ∀ (l : List (Slot × Fd)) (k : Kernel), k.used + l.length ≤ nfile →
      ∀ p, p ∈ l ∨ (∃ f, k.files.own p = some f) →
        ∃ f, (l.foldl (fun k p => k.consoleFd p.1 p.2) k).files.own p = some f := by
    intro l
    induction l with
    | nil => exact fun k _ p hp => hp.resolve_left not_mem_nil
    | cons q l ih =>
      intro k hlen p hp
      rw [length_cons] at hlen
      obtain ⟨hq, hused⟩ := consoleFd_used (k := k) q.1 q.2 (by omega)
      rw [foldl_cons]
      refine ih _ (by omega) p ?_
      by_cases hpq : p = q
      · exact .inr (hpq ▸ hq)
      · rcases hp with hp | ⟨f, hf⟩
        · exact .inl ((mem_cons.mp hp).resolve_left hpq)
        · refine .inr ⟨f, ?_⟩
          rw [consoleFd]
          split
          · exact hf
          next k1 g h1 =>
            rw [setOfile_files, setFile_ref_files (by rfl), (filealloc_files h1).2,
              Files.setOwn_own_of_ne _ _ hpq]
            exact hf
  have hempty : k.used = 0 := by
    rw [used, h]
    exact card_eq_zero.mpr (filter_false_of_mem fun _ _ hf => hf rfl)
  rw [kfsStart_files_eq]
  refine hfold _ k ?_ p (.inl hp)
  rw [hempty]
  decide

end Kernel

open Kernel

theorem Config.boot_live (c : Config) (i : Slot) : c.boot.Live i ↔ (c.prog i).isSome = true := by
  cases h : c.prog i with
  | none => simp [Live, boot, h]
  | some p =>
    simp only [Live, boot, h]
    split <;> simp

/-- A boot that fills every slot meets the invariant. -/
theorem Config.boot_filesInv (c : Config) (h : c.dmaDisk = true → ∀ i, (c.prog i).isSome = true) :
    FilesInv c.boot where
  turn := c.boot_turn
  fresh _ hd := ⟨rfl, fun i => (c.boot_live i).mpr (h hd i), rfl⟩
  ok hon := nomatch hon

/-- In every state that is reached after `kfs_start` the counters of the file table are
    exact, and processes that only fork, exit and use their descriptors take no entry, if
    and only if the loader has put a program into every slot. -/
theorem files_exact_iff (c : Config) :
    (∀ k, Run.Reaches Kernel.step (fun _ _ => True) c.boot k → k.fsready = true →
      k.FilesExact ∧ ∀ k', Run.Reaches Kernel.step (fun k e => ¬k.Opens e) k k' →
        ∀ f, (k.ftable f).ref = 0 → (k'.ftable f).ref = 0) ↔
      (c.dmaDisk = true → ∀ i, (c.prog i).isSome = true) := by
  constructor
  · intro hall hd i
    by_contra hi
    have hcond : (!c.boot.fsready && c.boot.dmaDisk) = true := hd
    have henter : c.boot.kenter .tick = { c.boot.kfsStart with
        tickTaken := false, waspark := c.boot.kfsStart.parked, parked := false
        phase := .entered .tick } := by
      rw [kenter, if_pos hcond]
    have hreach : Run.Reaches Kernel.step (fun _ _ => True) c.boot (c.boot.kenter .tick) :=
      Run.Reaches.refl.tail .tick trivial rfl
    have hon := kfsStart_fsready c.boot
    have hfiles : c.boot.kfsStart.files.Ok fun _ => True := by
      refine kfsStart_files ⟨?_, fun _ _ _ => rfl⟩ fun _ => rfl
      exact Refs.exact_empty
    have hid := kfsStart_ident c.boot
    obtain ⟨f, hf⟩ := kfsStart_own (k := c.boot) rfl (p := (i, 0)) (by
      rw [startFds, mem_flatMap]
      exact ⟨i, mem_finRange i, mem_cons_self ..⟩)
    rw [henter] at hreach
    generalize c.boot.kfsStart = k1 at hreach hon hfiles hid hf
    have hdead : ¬k1.Live i := fun hl =>
      hi ((c.boot_live i).mp ((live_iff_of_ident (congrFun hid i)).mp hl))
    exact not_filesExact (k := { k1 with
      tickTaken := false, waspark := k1.parked, parked := false, phase := .entered .tick })
      hfiles.exact hdead hf (hall _ hreach hon).1
  · intro hfull k hk hfs
    have hinv : FilesInv k := hk.invariant (I := FilesInv) (fun _ _ _ _ hs h => h.step hs)
      (c.boot_filesInv hfull)
    refine ⟨(hinv.ok hfs).filesExact, fun k' hk' => ?_⟩
    have hrun : k'.Turn ∧ k'.fsready = true ∧ Spares k k' := by
      refine hk'.invariant (I := fun k' => k'.Turn ∧ k'.fsready = true ∧ Spares k k') ?_
        ⟨hinv.turn, hfs, .of_eq rfl⟩
      rintro k1 e k2 hclosed hs ⟨hturn, hon, hsp⟩
      have hacts : ActRun False k1 k2 := step_acts hturn hclosed hs
      exact ⟨hturn.step hs, hacts.fsready hon, hsp.trans (hacts.spares hon)⟩
    exact hrun.2.2.free

/-- A shell and an idle process, as the loader sets them up. -/
def shellAndIdle : Config where
  prog i := if i = 0 then some { pid := 1 } else if i = 1 then some { pid := 2 } else none
  curr := 0
  loaded := rfl
  nextpid := 3
  initpid := 2
  fgpid := 1

/-- After the first tick file 6 is in use although no live process refers to it: it
    belongs to the empty slot 2. -/
theorem empty_slot_holds_file :
    ∃ k, Run.Reaches Kernel.step (fun _ _ => True) shellAndIdle.boot k ∧ k.fsready = true ∧
      k.ofile 2 0 = some 6 ∧ (k.ftable 6).ref = 1 ∧ ∀ i fd, k.Live i → k.ofile i fd ≠ some 6 :=
  Run.exists_reaches [.tick] (by decide +kernel)

end DmaCpu.Xv6
