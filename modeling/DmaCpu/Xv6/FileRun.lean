-- SUMMARY: What the calls of the file layer are made of.
import DmaCpu.Xv6.Syscall

/-!
# The steps of the file layer

Each call of the file layer sets files and descriptors, and closes or opens pipes. What
the rest of the kernel sees of a call is said once for each of these steps.
-/
namespace DmaCpu.Xv6.Kernel

variable {C N O : Prop} {k k' : Kernel} {f : FileId} {β : Type}

/-- A step. `C` says whether an end of a pipe may be closed, `N` whether a new file may be
    opened, and `O` whether a pipe may. -/
inductive FileStep (C N O : Prop) (k : Kernel) : Kernel → Prop where
  | file (f : FileId) (x : File) (h : N ∨ ((k.ftable f).ref = 0 → x.ref = 0)) :
    FileStep C N O k (k.setFile f x)
  | ofile (i : Slot) (fd : Fd) (o : Option FileId) : FileStep C N O k (k.setOfile i fd o)
  | panic : FileStep C N O k k.panic
  | close (hC : C) (pi : PipeId) (w : Bool) : FileStep C N O k (k.pipeclose pi w)
  | openPipe (hO : O) (pi : PipeId) : FileStep C N O k (k.openPipe pi)
  | poke (hO : O) (i : Slot) (a v : Word) : FileStep C N O k (k.pokeWord i a v)

abbrev FileRun (C N O : Prop) := Relation.ReflTransGen (FileStep C N O)

theorem FileStep.run (h : FileStep C N O k k') : FileRun C N O k k' := .single h

theorem FileRun.foldl {α : Type} {f : Kernel → α → Kernel} (hf : ∀ k a, FileRun C N O k (f k a))
    (l : List α) (k : Kernel) : FileRun C N O k (l.foldl f k) :=
  List.foldlRecOn l f .refl fun k' h a _ => h.trans (hf k' a)

/-- What has nothing to do with files stays as it is. -/
theorem FileRun.inv (g : Kernel → β) (hfile : ∀ k f x, g (setFile k f x) = g k)
    (hofile : ∀ k i fd o, g (setOfile k i fd o) = g k) (hpanic : ∀ k, g (panic k) = g k)
    (h : FileRun False N False k k') : g k' = g k := by
  induction h with
  | refl => rfl
  | tail _ hs ih =>
    refine Eq.trans ?_ ih
    cases hs with
    | file => exact hfile ..
    | ofile => exact hofile ..
    | panic => exact hpanic _
    | close h | openPipe h | poke h => exact h.elim

theorem fileclose_run (hC : C) (k : Kernel) (f : FileId) : FileRun C N O k (k.fileclose f) := by
  simp only [fileclose]
  split
  · exact FileStep.panic.run
  next hf =>
    have hpos : (k.ftable f).ref ≠ 0 := fun h => hf (h ▸ Nat.one_pos)
    split
    · exact (FileStep.file f _ (.inr fun h => absurd h hpos)).run
    split
    · exact (FileStep.file f _ (.inr fun _ => rfl)).run.tail (.close hC ..)
    · exact (FileStep.file f _ (.inr fun _ => rfl)).run

theorem kfsExit_run (hC : C) (k : Kernel) (i : Slot) : FileRun C N O k (k.kfsExit i) := by
  refine FileRun.foldl (fun k fd => ?_) _ k
  split
  · exact .refl
  · exact (fileclose_run hC k _).tail (.ofile ..)

theorem filedup_run (k : Kernel) (f : FileId) : FileRun C N O k (k.filedup f) := by
  rw [filedup]
  split
  · exact FileStep.panic.run
  next hf => exact (FileStep.file f _ (.inr fun h => absurd (h ▸ Nat.one_pos) hf)).run

theorem kfsForkcopy_run (k : Kernel) (p c : Slot) : FileRun C N O k (k.kfsForkcopy p c) := by
  refine FileRun.foldl (fun k fd => ?_) _ k
  split
  · exact (FileStep.ofile ..).run
  · exact (filedup_run k _).tail (.ofile ..)

theorem filealloc_run (hN : N) (h : k.filealloc = some (k', f)) : FileRun C N O k k' := by
  simp only [filealloc] at h
  split at h
  · cases h
  · cases h
    exact (FileStep.file f _ (.inl hN)).run

theorem fdalloc_run {fd : Fd} (h : k.fdalloc f = some (k', fd)) : FileRun C N O k k' := by
  simp only [fdalloc] at h
  split at h
  · cases h
  · cases h
    exact (FileStep.ofile ..).run

theorem kfsClose_run (hC : C) (k : Kernel) (fd : Word) : FileRun C N O k (k.kfsClose fd).1 := by
  rw [kfsClose]
  split
  · split
    · exact .refl
    · exact (FileStep.ofile ..).run.trans (fileclose_run hC ..)
  · exact .refl

theorem kfsDup_run (k : Kernel) (fd : Word) : FileRun C N O k (k.kfsDup fd).1 := by
  rw [kfsDup]
  split
  · exact .refl
  split
  · exact .refl
  next h => exact (fdalloc_run h).trans (filedup_run ..)

theorem kfsOpen_run (hC : C) (hN : N) (k : Kernel) (a : Answer) :
    FileRun C N O k (k.kfsOpen a).1 := by
  rw [kfsOpen]
  split
  · exact .refl
  split
  · exact .refl
  next h₁ =>
    split
    · exact (filealloc_run hN h₁).trans (fileclose_run hC ..)
    next h₂ => exact ((filealloc_run hN h₁).trans (fdalloc_run h₂)).tail (.file _ _ (.inl hN))

theorem pipealloc_run (hC : C) (hN : N) (hO : O) (k : Kernel) :
    FileRun C N O k k.pipealloc.1 := by
  simp only [pipealloc]
  split
  · exact .refl
  next pi _ =>
    split
    · exact .refl
    next h₁ =>
      split
      · exact (filealloc_run hN h₁).trans (fileclose_run hC ..)
      next h₂ =>
        exact ((((filealloc_run hN h₁).trans (filealloc_run hN h₂)).tail (.openPipe hO pi)).tail
          (.file _ _ (.inl hN))).tail (.file _ _ (.inl hN))

theorem kfsPipe_run (hC : C) (hN : N) (hO : O) (k : Kernel) (fdarray : Word) :
    FileRun C N O k (k.kfsPipe fdarray).1 := by
  have halloc := pipealloc_run hC hN hO k
  unfold kfsPipe
  generalize k.pipealloc = r at halloc ⊢
  obtain ⟨k₁, o⟩ := r
  cases o with
  | none => exact halloc
  | some fs =>
    dsimp only
    split
    · exact (halloc.trans (fileclose_run hC ..)).trans (fileclose_run hC ..)
    next h₂ =>
      have h₁₂ := halloc.trans (fdalloc_run h₂)
      split
      · exact ((h₁₂.tail (.ofile ..)).trans (fileclose_run hC ..)).trans (fileclose_run hC ..)
      next h₃ => exact ((h₁₂.trans (fdalloc_run h₃)).tail (.poke hO ..)).tail (.poke hO ..)

theorem kfsStart_inv (g : Kernel → β) (hfile : ∀ k f x, g (setFile k f x) = g k)
    (hofile : ∀ k i fd o, g (setOfile k i fd o) = g k) (hpanic : ∀ k, g (panic k) = g k)
    (hready : ∀ k : Kernel, g { k with fsready := true } = g k) (k : Kernel) :
    g k.kfsStart = g k := by
  refine (hready _).trans (FileRun.inv (N := True) g hfile hofile hpanic ?_)
  refine FileRun.foldl (fun k i => FileRun.foldl (fun k fd => ?_) _ k) _ k
  rw [consoleFd]
  split
  · exact FileStep.panic.run
  next h => exact ((filealloc_run trivial h).tail (.file _ _ (.inl trivial))).tail (.ofile ..)

end DmaCpu.Xv6.Kernel
