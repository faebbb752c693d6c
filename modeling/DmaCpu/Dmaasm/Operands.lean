-- SUMMARY: Where the operands and the targets of an instruction stand, and that pass 1 interns its literals.
import DmaCpu.Dmaasm.Pool

/-!
# Operands

An instruction has operands, which are parsed, and targets, which are names of labels.
Pass 1 interns every literal among the operands, and every target as a literal.
-/
namespace DmaCpu.Dmaasm

open Emu Fallible

/-- The arguments that are operands. -/
def Mnem.operands (mnem : Mnem) (args : List String) : List String :=
  match mnem with
  | .add | .sub | .or | .xor | .andn | .and | .shl => args
  | .move | .jeq | .jlt | .jltu => [args.getD 0 "", args.getD 1 ""]
  | .mulc => [args.getD 0 "", args.getD 2 ""]
  | .jumpr | .jneg | .jsign | .jbool => [args.getD 0 ""]
  | .jump | .call | .ret | .gpio | .nop | .halt | .safepoint => []

/-- The arguments that are labels to go to. -/
def Mnem.targets (mnem : Mnem) (args : List String) : List String :=
  match mnem with
  | .jump => if (parseNum (args.getD 0 "")).isSome then [] else [args.getD 0 ""]
  | .call => [args.getD 0 ""]
  | .jneg | .jsign | .jbool => [args.getD 1 "", args.getD 2 ""]
  | .jeq | .jlt | .jltu => [args.getD 2 "", args.getD 3 ""]
  | _ => []

/-- The labels that an instruction generates. -/
def Mnem.gens : Mnem → Nat
  | .jneg | .jbool | .call | .safepoint => 1
  | _ => 0

/-- Its slots in the arena. -/
def Mnem.pairs : Mnem → Nat
  | .jsign | .jeq | .jlt | .jltu => 1
  | _ => 0

section

variable {c : ScanCtx} {mnem : Mnem} {args : List String} {acts : List Act}
variable {ss shapes : List Cshape}

/-- A scan only interns. -/
theorem scan_eq_ok (h : c.scan args = .ok acts) :
    (∀ s ∈ args, ∀ op, c.opts.parseOperand c.line s = .ok op → op.kind = .lit → .intern op ∈ acts) ∧
      acts.countP Act.isLabel = 0 ∧ acts.countP Act.isPair = 0 := by
  induction args generalizing acts with
  | nil =>
    cases h
    exact ⟨nofun, rfl, rfl⟩
  | cons s args ih =>
    obtain ⟨op, hop, h⟩ := bind_eq_ok.mp h
    obtain ⟨acts', hacts, rfl⟩ := map_eq_ok.mp h
    obtain ⟨hmem, hlabel, hpair⟩ := ih hacts
    have harg : c.internArg s = if op.kind = .lit then [.intern op] else [] := by
      rw [ScanCtx.internArg, hop]
    refine ⟨List.forall_mem_cons.mpr ⟨fun op' hop' hlit => ?_, fun s hs op hop hlit => ?_⟩, ?_, ?_⟩
    · cases hop.symm.trans hop'
      rw [harg, if_pos hlit]
      exact List.mem_append_left _ List.mem_cons_self
    · exact List.mem_append_right _ (hmem s hs op hop hlit)
    · rw [List.countP_append, hlabel, harg]
      split <;> rfl
    · rw [List.countP_append, hpair, harg]
      split <;> rfl

theorem ScanCtx.internArg_counts (c : ScanCtx) (s : String) :
    (c.internArg s).countP Act.isLabel = 0 ∧ (c.internArg s).countP Act.isPair = 0 := by
  unfold ScanCtx.internArg
  split
  · split <;> exact ⟨rfl, rfl⟩
  · exact ⟨rfl, rfl⟩

/-- What a scan does to the tables, next to the arguments of the instruction. -/
structure ScanCtx.Does (c : ScanCtx) (mnem : Mnem) (args : List String) (acts : List Act) : Prop where
  operands : ∀ s ∈ mnem.operands args, ∀ op, c.opts.parseOperand c.line s = .ok op → op.kind = .lit →
    .intern op ∈ acts
  targets : ∀ t ∈ mnem.targets args, .intern (.litSym t) ∈ acts
  gens : acts.countP Act.isLabel = mnem.gens
  pairs : acts.countP Act.isPair = mnem.pairs

theorem ScanCtx.does_of_scan (pre : List Act) {xs : List String} {scanned : List Act} (hscan : c.scan xs = .ok scanned)
    (hops : ∀ s ∈ mnem.operands args, s ∈ xs) (htargets : ∀ t ∈ mnem.targets args, .intern (.litSym t) ∈ pre)
    (hgens : pre.countP Act.isLabel = mnem.gens) (hpairs : pre.countP Act.isPair = mnem.pairs) :
    c.Does mnem args (pre ++ scanned) := by
  obtain ⟨hmem, hlabel, hpair⟩ := scan_eq_ok hscan
  refine ⟨fun s hs op hop hlit => ?_, fun t ht => ?_, ?_, ?_⟩
  · exact List.mem_append_right _ (hmem s (hops s hs) op hop hlit)
  · exact List.mem_append_left _ (htargets t ht)
  · rw [List.countP_append, hlabel, hgens, Nat.add_zero]
  · rw [List.countP_append, hpair, hpairs, Nat.add_zero]

/-- The instructions that dispatch on a sign. -/
theorem ScanCtx.does_of_scanSign {p : Jpair} {vals : List String} {as : List Act}
    (h : c.scanSign p vals ss as = .ok (shapes, acts)) (hops : ∀ s ∈ mnem.operands args, s ∈ vals)
    (htargets : ∀ t ∈ mnem.targets args, t = p.neg ∨ t = p.nonneg) (hgens : mnem.gens = 0) (hpairs : mnem.pairs = 1)
    (has : as.countP Act.isLabel = 0 ∧ as.countP Act.isPair = 0) : c.Does mnem args acts := by
  obtain ⟨scanned, hscan, heq⟩ := map_eq_ok.mp h
  cases heq
  refine does_of_scan _ hscan hops (fun t ht => ?_) ?_ ?_
  · rcases htargets t ht with rfl | rfl <;> simp
  · rw [hgens]
    simp [List.countP_append, has.1, Act.isLabel]
  · rw [hpairs]
    simp [List.countP_cons, List.countP_append, has.2, Act.isPair]

/-- The instructions without operands. -/
theorem ScanCtx.does_of_fixed (hops : mnem.operands args = []) (htargets : ∀ t ∈ mnem.targets args, .intern (.litSym t) ∈ acts)
    (hgens : acts.countP Act.isLabel = mnem.gens) (hpairs : acts.countP Act.isPair = mnem.pairs) :
    c.Does mnem args acts :=
  ⟨fun _ hs => absurd (hops ▸ hs) List.not_mem_nil, htargets, hgens, hpairs⟩

/-- The instructions on three words. -/
theorem ScanCtx.does_of_args (pre : List Act) {what : String} {x : String}
    (h : c.needRegs what ((c.scan args).map fun acts => (ss, pre ++ c.internArg x ++ acts)) = .ok (shapes, acts))
    (hops : mnem.operands args = args) (htargets : mnem.targets args = [])
    (hgens : pre.countP Act.isLabel = mnem.gens) (hpairs : pre.countP Act.isPair = mnem.pairs) :
    c.Does mnem args acts := by
  obtain ⟨scanned, hscan, heq⟩ := map_eq_ok.mp (needRegs_eq_ok.mp h).2
  cases heq
  obtain ⟨hlabel, hpair⟩ := c.internArg_counts x
  refine does_of_scan _ hscan (fun s hs => hops ▸ hs) (fun t ht => absurd (htargets ▸ ht) List.not_mem_nil) ?_ ?_
  · rw [List.countP_append, hgens, hlabel, Nat.add_zero]
  · rw [List.countP_append, hpairs, hpair, Nat.add_zero]

theorem two_targets {P : String → Prop} {x y : String} (hx : P x) (hy : P y) : ∀ t ∈ [x, y], P t :=
  List.forall_mem_cons.mpr ⟨hx, List.forall_mem_singleton.mpr hy⟩

/-- Pass 1 interns the literals and the targets of every instruction. -/
theorem ScanCtx.does {shapes : List Cshape} (h : c.scanShapes mnem args = .ok (shapes, acts)) : c.Does mnem args acts := by
  cases mnem with
  | add | or | xor | andn | shl => exact does_of_args [] h rfl rfl rfl rfl
  | and => exact does_of_args [_] h rfl rfl rfl rfl
  | sub => exact does_of_args [_, _] h rfl rfl rfl rfl
  | move =>
    obtain ⟨f, -, h⟩ := bind_eq_ok.mp h
    split at h
    · split at h
      · cases h
      · obtain ⟨scanned, hscan, heq⟩ := map_eq_ok.mp h
        cases heq
        refine does_of_scan _ hscan (fun _ => id) (List.forall_mem_nil _) ?_ ?_
        · rw [List.countP_append, (c.internArg_counts _).1, (c.internArg_counts _).1]
          rfl
        · rw [List.countP_append, (c.internArg_counts _).2, (c.internArg_counts _).2]
          rfl
    · obtain ⟨scanned, hscan, heq⟩ := map_eq_ok.mp h
      cases heq
      exact does_of_scan [] hscan (fun _ => id) (List.forall_mem_nil _) rfl rfl
  | mulc =>
    replace h := (needRegs_eq_ok.mp h).2
    split at h
    · cases h
    · obtain ⟨scanned, hscan, heq⟩ := map_eq_ok.mp h
      split at heq
      · cases heq
        exact does_of_scan _ hscan (fun _ => id) (List.forall_mem_nil _) (c.internArg_counts _).1 (c.internArg_counts _).2
      · cases heq
        exact does_of_scan [] hscan (fun _ => id) (List.forall_mem_nil _) rfl rfl
  | jump =>
    simp only [ScanCtx.scanShapes] at h
    split at h
    next v hv =>
      cases h
      refine does_of_fixed rfl (fun t ht => ?_) rfl rfl
      rw [Mnem.targets, hv] at ht
      cases ht
    next hv =>
      cases h
      refine does_of_fixed rfl (fun t ht => ?_) rfl rfl
      rw [Mnem.targets, hv] at ht
      exact List.mem_singleton.mp ht ▸ List.mem_cons_self
  | jumpr =>
    have hscanned : ∃ scanned, c.scan [args.getD 0 ""] = .ok scanned ∧ acts = c.internArg (args.getD 0 "") ++ scanned := by
      simp only [ScanCtx.scanShapes] at h
      split at h
      · obtain ⟨scanned, hscan, heq⟩ := map_eq_ok.mp (needRegs_eq_ok.mp h).2
        exact ⟨scanned, hscan, (congrArg Prod.snd heq).symm⟩
      · obtain ⟨scanned, hscan, heq⟩ := map_eq_ok.mp h
        exact ⟨scanned, hscan, (congrArg Prod.snd heq).symm⟩
    obtain ⟨scanned, hscan, rfl⟩ := hscanned
    exact does_of_scan _ hscan (fun _ => id) (List.forall_mem_nil _) (c.internArg_counts _).1 (c.internArg_counts _).2
  | jneg =>
    obtain ⟨scanned, hscan, heq⟩ := map_eq_ok.mp (needRegs_eq_ok.mp h).2
    split at heq
    · cases heq
      rw [show ∀ (x : Act) (xs : List Act) (y z w : Act), x :: xs ++ y :: z :: w :: scanned =
        x :: xs ++ [y, z, w] ++ scanned by simp]
      refine does_of_scan _ hscan (fun _ => id) (two_targets (by simp) (by simp)) ?_ ?_
      · rw [List.countP_append, List.countP_cons, (c.internArg_counts _).1]
        rfl
      · rw [List.countP_append, List.countP_cons, (c.internArg_counts _).2]
        rfl
    · cases heq
      exact does_of_scan [_, _, _, _] hscan (fun _ => id) (two_targets (by simp) (by simp)) rfl rfl
  | jsign =>
    exact does_of_scanSign (needRegs_eq_ok.mp h).2 (fun _ => id) (fun t ht => by simpa [Mnem.targets] using ht) rfl rfl
      (c.internArg_counts _)
  | jeq =>
    refine does_of_scanSign (needRegs_eq_ok.mp h).2 (fun _ => id) (fun t ht => ?_) rfl rfl ⟨rfl, rfl⟩
    simpa [Mnem.targets, or_comm] using ht
  | jlt | jltu =>
    refine does_of_scanSign (needRegs_eq_ok.mp h).2 (fun _ => id) (fun t ht => ?_) rfl rfl ⟨rfl, rfl⟩
    simpa [Mnem.targets] using ht
  | jbool =>
    obtain ⟨scanned, hscan, heq⟩ := map_eq_ok.mp (needRegs_eq_ok.mp h).2
    split at heq <;> cases heq <;>
      exact does_of_scan [_, _, _] hscan (fun _ => id) (two_targets (by simp) (by simp)) rfl rfl
  | call =>
    cases (needRegs_eq_ok.mp h).2
    exact does_of_fixed rfl (List.forall_mem_singleton.mpr (by simp)) rfl rfl
  | ret | nop | safepoint =>
    cases (needRegs_eq_ok.mp h).2
    exact does_of_fixed rfl (List.forall_mem_nil _) rfl rfl
  | gpio =>
    simp only [ScanCtx.scanShapes] at h
    split at h
    · cases h
    · split at h
      · cases h
      · split at h <;> cases h <;> exact does_of_fixed rfl (List.forall_mem_nil _) rfl rfl
  | halt =>
    cases h
    exact does_of_fixed rfl (List.forall_mem_nil _) rfl rfl

end

end DmaCpu.Dmaasm
