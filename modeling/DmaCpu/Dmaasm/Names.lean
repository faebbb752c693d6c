-- SUMMARY: The names that a program and its assembler define, and which of them pass 1 keeps apart.
import DmaCpu.Dmaasm.Operands

/-!
# Names

Labels, the register file, generated labels and slots of the arena share one table.
Pass 1 rejects a label that is in the table. What it enters itself it does not look up.
-/
namespace DmaCpu.Dmaasm

open Emu

def Laid.gens (l : Laid) : Nat := (Mnem.ofString l.stmt.mnem).elim 0 Mnem.gens

def Laid.pairs (l : Laid) : Nat := (Mnem.ofString l.stmt.mnem).elim 0 Mnem.pairs

/-- The labels of a program. -/
def labelNames (ls : List Laid) : List String := (ls.map fun l => l.stmt.label).filter fun name => name != ""

/-- What the assembler itself defines: registers, generated labels and slots of the arena. -/
def ownNames (ls : List Laid) : List String :=
  (if ls.any fun l => l.stmt.dir == "regs" then abiRegs else []) ++
    (List.range (ls.map Laid.gens).sum).map (fun i => Asm.genName (i + 1)) ++
    (List.range (ls.map Laid.pairs).sum).map jpairName

/-! ## Names of the assembler -/

/-- A number can be told from its digits. -/
theorem numbered_inj {s : String} {m n : Nat} (h : s ++ Nat.repr m = s ++ Nat.repr n) : m = n := by
  have hlist := congrArg String.toList h
  simp only [String.toList_append, Nat.repr_eq_ofList_toDigits, String.toList_ofList] at hlist
  have hdigits := congrArg (fun ds => Nat.ofDigitChars 10 ds 0) (List.append_cancel_left hlist)
  simpa only [Nat.ofDigitChars_ten_toDigits] using hdigits

theorem genName_third (n : Nat) : (Asm.genName n).toList[2]? = some 'L' := by
  rw [Asm.genName, String.toList_append]
  rfl

theorem jpairName_third (n : Nat) : (jpairName n).toList[2]? = some 'J' := by
  rw [jpairName, String.toList_append]
  rfl

theorem abiRegs_third : ∀ r ∈ abiRegs, r.toList[2]? ≠ some 'L' ∧ r.toList[2]? ≠ some 'J' := by
  decide +kernel

theorem abiRegs_nodup : abiRegs.Nodup := by
  decide +kernel

/-- The assembler does not define a name twice. -/
theorem ownNames_nodup (ls : List Laid) : (ownNames ls).Nodup := by
  have hregs : (if ls.any fun l => l.stmt.dir == "regs" then abiRegs else []).Nodup := by
    split
    · exact abiRegs_nodup
    · exact List.nodup_nil
  have hthird (r : String) (hr : r ∈ if ls.any fun l => l.stmt.dir == "regs" then abiRegs else []) :
      r.toList[2]? ≠ some 'L' ∧ r.toList[2]? ≠ some 'J' := by
    split at hr
    · exact abiRegs_third r hr
    · cases hr
  refine List.nodup_append.mpr ⟨List.nodup_append.mpr ⟨hregs, ?_, ?_⟩, ?_, ?_⟩
  · exact List.nodup_range.map fun i j h => Nat.succ.inj (numbered_inj h)
  · intro r hr x hx hne
    obtain ⟨i, -, rfl⟩ := List.mem_map.mp hx
    exact (hthird r hr).1 (hne ▸ genName_third _)
  · exact List.nodup_range.map fun i j h => numbered_inj h
  · intro r hr x hx hne
    obtain ⟨i, -, rfl⟩ := List.mem_map.mp hx
    rcases List.mem_append.mp hr with hr | hr
    · exact (hthird r hr).2 (hne ▸ jpairName_third _)
    · obtain ⟨j, -, rfl⟩ := List.mem_map.mp hr
      have h := (genName_third (j + 1)).symm.trans (congrArg (fun s : String => s.toList[2]?) hne |>.trans (jpairName_third i))
      exact absurd (Option.some.inj h) (by decide)

/-! ## Pass 1 -/

section

variable {o : Options} {a a₀ a₁ a₂ : Asm} {s : Stmt} {l : Laid} {ls : List Laid} {name : String}

theorem acts_jpairs (acts : List Act) :
    (acts.foldl Asm.act a).jpairs.length = a.jpairs.length + acts.countP Act.isPair := by
  induction acts generalizing a with
  | nil => rfl
  | cons x acts ih =>
    have hx : (a.act x).jpairs.length = a.jpairs.length + if x.isPair then 1 else 0 := by
      cases x with
      | intern op | label off => exact (congrArg (fun x : Asm => x.jpairs.length) (Asm.internLit_unpooled ..) :)
      | pair p => exact List.length_append
    rw [List.foldl_cons, ih, hx, List.countP_cons, Nat.add_right_comm, Nat.add_assoc]

/-- What pass 1 generates can be counted in the source. -/
theorem Lays.counts (h : Lays o a₁ s a₂ l) (hsole : s.Sole) :
    a₂.genLabel = a₁.genLabel + l.gens ∧ a₂.jpairs.length = a₁.jpairs.length + l.pairs := by
  have hzero (hmnem : l.stmt.mnem = "") : l.gens = 0 ∧ l.pairs = 0 := by
    rw [Laid.gens, Laid.pairs, hmnem]
    exact ⟨rfl, rfl⟩
  have idle (hmnem : l.stmt.mnem = "") (hgen : a₂.genLabel = a₁.genLabel) (hpair : a₂.jpairs = a₁.jpairs) :
      a₂.genLabel = a₁.genLabel + l.gens ∧ a₂.jpairs.length = a₁.jpairs.length + l.pairs := by
    rw [(hzero hmnem).1, (hzero hmnem).2, hgen, hpair]
    exact ⟨rfl, rfl⟩
  cases h with
  | label hlabel => exact idle (hsole.1 hlabel).2 rfl rfl
  | regs _ hdir =>
    obtain ⟨_, heq⟩ := a₁.layRegs_eq
    rw [heq] at idle ⊢
    exact idle (hsole.of_dir hdir (by decide)) rfl rfl
  | nothing _ _ hmnem => exact idle hmnem rfl rfl
  | instr mnem shapes acts _ _ hmnem _ hscan =>
    have hdoes := ScanCtx.does hscan
    obtain ⟨-, hgen, hpairs⟩ := Asm.placeInstr_names o (acts.foldl Asm.act a₁) s mnem shapes
    rw [hgen, hpairs, acts_genLabel, acts_jpairs, hdoes.gens, hdoes.pairs, Laid.gens, Laid.pairs, hmnem]
    exact ⟨rfl, rfl⟩
  | text _ hdir | ramtext _ hdir | data _ hdir | entry _ _ hdir | words _ hdir | textWords _ hdir | space _ _ _ hdir
  | write _ _ hdir | noSniff _ hdir => exact idle (hsole.of_dir hdir (by decide)) rfl rfl

theorem LaysAll.counts (h : LaysAll o a₁ ls a₂) (hsole : ∀ l ∈ ls, l.stmt.Sole) :
    a₂.genLabel = a₁.genLabel + (ls.map Laid.gens).sum ∧
      a₂.jpairs.length = a₁.jpairs.length + (ls.map Laid.pairs).sum := by
  induction h with
  | nil => exact ⟨rfl, rfl⟩
  | cons hl _ ih =>
    obtain ⟨hs, hsole⟩ := List.forall_mem_cons.mp hsole
    obtain ⟨hgen, hpair⟩ := hl.counts hs
    obtain ⟨hgens, hpairs⟩ := ih hsole
    rw [hgens, hpairs, hgen, hpair, List.map_cons, List.map_cons, Nat.add_assoc,
      Nat.add_assoc]
    exact ⟨rfl, rfl⟩

/-- No name is taken out of the table. -/
def Asm.Defines (a a' : Asm) : Prop := ∀ name, a.syms name ≠ none → a'.syms name ≠ none

theorem Asm.Defines.trans {a a' a'' : Asm} (h : a.Defines a') (h' : a'.Defines a'') : a.Defines a'' :=
  fun name hname => h' name (h name hname)

theorem defines_of_keeps {a a' : Asm} (h : ∀ name, a.Keeps name a') : a.Defines a' :=
  fun name hname => (h name).symm ▸ hname

theorem defines_setSym (a : Asm) (name : String) (sym : Symbol) : a.Defines (a.setSym name sym) := by
  intro name' hname'
  by_cases h : name' = name
  · have hsym : (a.setSym name sym).syms name = some sym := Function.update_self _ _ _
    rw [h, hsym]
    exact Option.some_ne_none _
  · exact (keeps_setSym h a sym).symm ▸ hname'

theorem defines_foldl {α : Type} {f : Asm → α → Asm} (hf : ∀ (a : Asm) x, a.Defines (f a x)) (xs : List α) (a : Asm) :
    a.Defines (xs.foldl f a) :=
  List.foldlRecOn xs f (fun _ => id) fun a' h x _ => h.trans (hf a' x)

theorem defines_act (a : Asm) (x : Act) : a.Defines (a.act x) := by
  cases x with
  | intern op => exact defines_of_keeps fun _ => keeps_internLit a op
  | label off => exact (defines_setSym { a with genLabel := _ } _ _).trans (defines_of_keeps fun _ => keeps_internLit _ _)
  | pair p => exact fun _ => id

theorem layRegs_syms (a : Asm) (name : String) (hname : a.syms name ≠ none) : a.layRegs.syms name ≠ none := by
  have h (rs : List String) (a : Asm) (hname : a.syms name ≠ none) :
      (rs.foldl (fun a r => { a.setSym r ⟨false, a.dataOff⟩ with dataOff := a.dataOff + 4 }) a).syms name ≠ none := by
    induction rs generalizing a with
    | nil => exact hname
    | cons r rs ih => exact ih _ (defines_setSym a r ⟨false, a.dataOff⟩ name hname)
  unfold Asm.layRegs
  generalize abiRegs = rs
  exact h rs { a with hasRegs := true } hname

theorem Lays.defines (h : Lays o a₁ s a₂ l) : a₁.Defines a₂ := by
  cases h with
  | label => exact defines_setSym a₁ _ _
  | regs => exact layRegs_syms a₁
  | instr mnem shapes acts =>
    exact (defines_foldl defines_act acts a₁).trans (defines_of_keeps (congrFun (Asm.placeInstr_names o _ s mnem shapes).1))
  | _ => exact fun _ => id

theorem Lays.label_new (h : Lays o a₁ s a₂ l) (hlabel : s.label ≠ "") : a₁.syms s.label = none := by
  cases h with
  | label _ hnew => exact hnew
  | text h | ramtext h | data h | entry _ h | words h | textWords h | space _ _ h | regs h | write _ h | noSniff h
  | instr _ _ _ h | nothing h => exact absurd h hlabel

theorem labelNames_cons :
    labelNames (l :: ls) = if l.stmt.label = "" then labelNames ls else l.stmt.label :: labelNames ls := by
  by_cases h : l.stmt.label = "" <;> simp [labelNames, h]

/-- A label is not in the table before its statement, and stays there after it. -/
theorem LaysAll.labels (h : LaysAll o a₁ ls a₂) :
    a₁.Defines a₂ ∧ (labelNames ls).Nodup ∧ ∀ name ∈ labelNames ls, a₁.syms name = none := by
  induction h with
  | nil => exact ⟨fun _ => id, List.nodup_nil, nofun⟩
  | @cons a a' _ l ls hl hls ih =>
    obtain ⟨hdef, hnodup, hnone⟩ := ih
    have hnone' (name : String) (hname : name ∈ labelNames ls) : a.syms name = none :=
      not_not.mp fun hsome => hl.defines name hsome (hnone name hname)
    refine ⟨hl.defines.trans hdef, ?_⟩
    rw [labelNames_cons]
    split
    · exact ⟨hnodup, hnone'⟩
    next hlabel =>
      have hsym := hl.label_syms hlabel
      refine ⟨List.nodup_cons.mpr ⟨fun hmem => ?_, hnodup⟩, List.forall_mem_cons.mpr ⟨?_, hnone'⟩⟩
      · cases hsym.symm.trans (hnone _ hmem)
      · exact hl.label_new hlabel

variable {pre post : List Laid} {ss : List Stmt}

/-- A label that has no name of the assembler's stays where it was found. -/
theorem PassOne.label_kept (h : PassOne o ls pre l post a₁ a₂) (hall : ({} : Asm).layStmts o ss = .ok (a₀, ls))
    (hsole : ∀ l ∈ ls, l.stmt.Sole) (hfin : a₀.finish o = .ok a) (hlabel : l.stmt.label ≠ "")
    (hown : l.stmt.label ∉ ownNames ls) :
    a.syms l.stmt.label = some (if a₁.inData then ⟨false, a₁.dataOff⟩ else ⟨true, a₁.textOff⟩) := by
  obtain ⟨hgens, hpairs⟩ := (laysAll_of_layStmts hall).1.counts hsole
  obtain ⟨hnames, hnojp⟩ := not_or.mp (List.mem_append.not.mp hown)
  obtain ⟨hnoreg, hnogen⟩ := not_or.mp (List.mem_append.not.mp hnames)
  have hsym := h.lays.2.label_syms hlabel
  have hkeep : a₂.Keeps l.stmt.label a₀ := by
    refine (laysAll_of_layStmts (h.after hall)).1.keeps (fun l' hl' hdir hmem => hnoreg ?_) (fun i hpos hle heq => ?_)
      (hsym ▸ Option.some_ne_none _)
    · have hany : (ls.any fun l => l.stmt.dir == "regs") = true :=
        List.any_eq_true.mpr ⟨l', h.cut ▸ List.mem_append_right _ (List.mem_cons_of_mem _ hl'), beq_iff_eq.mpr hdir⟩
      rw [hany]
      exact hmem
    · rw [hgens, Nat.zero_add] at hle
      refine hnogen (List.mem_map.mpr ⟨i - 1, List.mem_range.mpr (by omega), ?_⟩)
      rw [heq, Nat.sub_add_cancel hpos]
  have hfinal : a₀.Keeps l.stmt.label a := by
    refine keeps_finish hfin fun i hi heq => hnojp (List.mem_map.mpr ⟨i, List.mem_range.mpr ?_, heq.symm⟩)
    rw [hpairs, List.length_nil, Nat.zero_add] at hi
    exact hi
  exact hfinal.trans (hkeep.trans hsym)

end

end DmaCpu.Dmaasm
