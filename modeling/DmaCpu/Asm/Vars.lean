-- SUMMARY: Assembly code over named words: rules that speak of variables instead of memory.
import DmaCpu.Asm.Rules

/-!
# Variables

Most code only uses words that have a name. For a set of such words at addresses of
their own, a memory is seen as an assignment of values to them, and an instruction
as an assignment to one of them. `null` has no value. What the code may change in
memory is kept as a set of addresses.
-/
namespace DmaCpu.Asm

open Function

/-- The words in `C` have aligned addresses of their own, and the runtime's words are
    among them. -/
structure Vars (sc : Scope) (C : Set Cell) : Prop where
  rt (r : Reg) : Cell.rt r ∈ C
  aligned {c : Cell} (hc : c ∈ C) : Aligned (sc.cell c) .word
  inj : Set.InjOn sc.cell C

/-- Memory `m` holds the values `ρ`. -/
def Sees (sc : Scope) (C : Set Cell) (ρ : Cell → Word) (m : Cells) : Prop :=
  ∀ c ∈ C, c ≠ .rt .null → m (sc.cell c) = ρ c

/-- Under the values `ρ` an operand that is none of the words in `avoid` reads as `x`. -/
inductive Reads (sc : Scope) (C : Set Cell) (ρ : Cell → Word) (avoid : List Reg) :
    Opnd → Word → Prop where
  | cell {c : Cell} (hc : c ∈ C) (hn : ∀ r ∈ .null :: avoid, c ≠ .rt r) :
      Reads sc C ρ avoid (.cell c 0) (ρ c)
  | num (v : Word) : Reads sc C ρ avoid (.num v) v
  | addr (c : Cell) (off : Word) : Reads sc C ρ avoid (.addr c off) (sc.cell c + off)
  | code (l : String) (off : Word) : Reads sc C ρ avoid (.code l off) (sc.label l + off)

/-- Under the values `ρ` a condition is one on the words `t'`. -/
inductive Test.Reads (sc : Scope) (C : Set Cell) (ρ : Cell → Word) : Test Opnd → Test Word → Prop where
  | neg {a x} (ha : Asm.Reads sc C ρ [] a x) : Reads sc C ρ (.neg a) (.neg x)
  | sign {a x} (ha : Asm.Reads sc C ρ [] a x) : Reads sc C ρ (.sign a) (.sign x)
  | eq {a b x y} (ha : Asm.Reads sc C ρ [.at1, .at2] a x) (hb : Asm.Reads sc C ρ [.at1, .at2] b y) :
      Reads sc C ρ (.eq a b) (.eq x y)
  | lt {a b x y} (ha : Asm.Reads sc C ρ [.at1, .at2] a x) (hb : Asm.Reads sc C ρ [.at1, .at2] b y) :
      Reads sc C ρ (.lt a b) (.lt x y)
  | ltu {a b x y} (ha : Asm.Reads sc C ρ [.at1, .at2] a x) (hb : Asm.Reads sc C ρ [.at1, .at2] b y) :
      Reads sc C ρ (.ltu a b) (.ltu x y)
  | bool {a x} (ha : Asm.Reads sc C ρ [] a x) : Reads sc C ρ (.bool a) (.bool x)

variable {M : Machine} {Q : State → Prop} {sc : Scope} {C : Set Cell} {D : Set Word}
  {ρ : Cell → Word} {avoid : List Reg} {pc n x y : Word} {m m' m₀ : Cells} {a b : Opnd} {c d : Cell}
  {fl : Word → Field → Word} {t' : Test Word} {t : Test Opnd} {op : BinOp}

section

variable (hC : Vars sc C)
include hC

theorem Vars.cell_eq_iff (hc : c ∈ C) (hd : d ∈ C) :
    sc.cell c = sc.cell d ↔ c = d := hC.inj.eq_iff hc hd

theorem Vars.reg_eq_iff {r s : Reg} : sc.reg r = sc.reg s ↔ r = s := by
  rw [Scope.reg, Scope.reg, hC.cell_eq_iff (hC.rt r) (hC.rt s), Cell.rt.injEq]

theorem Vars.reg_ne {r s : Reg} (h : r ≠ s) : sc.reg r ≠ sc.reg s :=
  mt hC.reg_eq_iff.mp h

/-- A runtime word as an operand. -/
theorem Reads.rt {r : Reg} (h : r ∉ .null :: avoid) :
    Reads sc C ρ avoid (Asm.rt r) (ρ (.rt r)) :=
  .cell (hC.rt r) fun _ hr heq => h (Cell.rt.inj heq ▸ hr)

theorem Reads.operand_eq (hm : Sees sc C ρ m) (h : Reads sc C ρ avoid a x)
    {l : List Word} (hl : ∀ p ∈ l, ∃ r ∈ Reg.null :: avoid, p = sc.reg r) (ctrl : Word) :
    Machine.operand m ctrl l (sc.src a) = some x := by
  cases h with
  | @cell c hc hn =>
    have hmem : sc.cell c ∉ l := by
      intro hin
      obtain ⟨r, hr, heq⟩ := hl _ hin
      exact hn r hr ((hC.cell_eq_iff hc (hC.rt r)).mp heq)
    have hsrc : sc.src (.cell c 0) = .cell (sc.cell c) := by simp [Scope.src]
    rw [hsrc, Machine.operand, if_neg hmem, Cells.load_word (hC.aligned hc),
      hm c hc (hn .null (by simp))]
  | num v => rfl
  | addr c off => rfl
  | code l off => rfl

/-- One variable, and `null`, have changed. -/
theorem Sees.update (hm : Sees sc C ρ m) (hd : d ∈ C) (j : Word) :
    Sees sc C (update ρ d x)
      (update (update m (sc.reg .null) j) (sc.cell d) x) := by
  intro c hc hn
  by_cases heq : c = d
  · subst heq
    rw [update_self, update_self]
  · have hcd : sc.cell c ≠ sc.cell d := fun h => heq ((hC.cell_eq_iff hc hd).mp h)
    have hcn : sc.cell c ≠ sc.reg .null := fun h => hn ((hC.cell_eq_iff hc (hC.rt _)).mp h)
    rw [update_of_ne hcd, update_of_ne hcn, update_of_ne heq]
    exact hm c hc hn

end

namespace Machine

/-- From `pc`, with any memory that holds the values `ρ` and is `m₀` outside `D`, the
    machine gets into `Q`. -/
def wpv (M : Machine) (sc : Scope) (C : Set Cell) (D : Set Word) (m₀ : Cells) (Q : State → Prop)
    (pc : Word) (ρ : Cell → Word) (fl : Word → Field → Word) : Prop :=
  ∀ m, Sees sc C ρ m → Off D m₀ m → M.wp Q pc m fl

/-- The words a macro may not be given: those it overwrites. -/
theorem avoid_null (sc : Scope) : ∀ p ∈ [sc.scratch.null], ∃ r ∈ [Reg.null], p = sc.reg r := by
  simp [Scope.scratch]

theorem avoid_all (sc : Scope) : ∀ p ∈ [sc.scratch.at1, sc.scratch.at2, sc.scratch.null],
    ∃ r ∈ [Reg.null, .at1, .at2], p = sc.reg r := by
  simp [Scope.scratch]

theorem wpv_bin (hC : Vars sc C)
    (hcode : M.code pc = some ⟨sc.resolve (.bin op a b (.cell d 0)), n, sc.scratch⟩)
    (hop : op ≠ .and) (ha : Reads sc C ρ [] a x) (hb : Reads sc C ρ [] b y) (hd : d ∈ C)
    (hD : sc.cell d ∈ D) (hnull : sc.reg .null ∈ D)
    (h : M.wpv sc C D m₀ Q n (update ρ d (op.eval x y)) fl) :
    M.wpv sc C D m₀ Q pc ρ fl := by
  intro m hm hoff
  have hcode' : M.code pc =
      some ⟨.bin op (sc.src a) (sc.src b) (.cell (sc.cell d)), n, sc.scratch⟩ := by
    simpa [Scope.resolve, Instr.map, Scope.dst] using hcode
  refine wp_bin hcode' hop (ha.operand_eq hC hm (avoid_null sc) _)
    (hb.operand_eq hC hm (avoid_null sc) _) (hC.aligned hd) fun j => ?_
  exact h _ (hm.update hC hd j) ((hoff.update hnull j).update hD _)

/-- A macro on runtime words. -/
theorem wpv_bin_rt (hC : Vars sc C) {r r' r'' : Reg}
    (hcode : M.code pc = some ⟨sc.resolve (.bin op (Asm.rt r) (Asm.rt r') (Asm.rt r'')), n,
      sc.scratch⟩)
    (hok : op ≠ .and ∧ r ≠ .null ∧ r' ≠ .null) (hD : sc.cell (.rt r'') ∈ D)
    (hnull : sc.reg .null ∈ D)
    (h : M.wpv sc C D m₀ Q n
      (update ρ (.rt r'') (op.eval (ρ (.rt r)) (ρ (.rt r')))) fl) :
    M.wpv sc C D m₀ Q pc ρ fl :=
  wpv_bin hC hcode hok.1 (.rt hC (by simpa using hok.2.1)) (.rt hC (by simpa using hok.2.2))
    (hC.rt _) hD hnull h

theorem wpv_jumpr (hC : Vars sc C)
    (hcode : M.code pc = some ⟨sc.resolve (.jumpr a), n, sc.scratch⟩)
    (ha : Reads sc C ρ [] a x) (h : M.wpv sc C D m₀ Q x ρ fl) : M.wpv sc C D m₀ Q pc ρ fl :=
  fun m hm hoff => wp_jumpr hcode (ha.operand_eq hC hm (by simp) _) (h m hm hoff)

/-- The values after a macro that uses `at` and `at2`. -/
def spoilt (ρ : Cell → Word) (x y : Word) : Cell → Word :=
  update (update ρ (.rt .at1) x) (.rt .at2) y

theorem sees_spoilt (hC : Vars sc C) (hm : Sees sc C ρ m)
    (hoff : Off {sc.reg .at1, sc.reg .at2, sc.reg .null} m m') :
    Sees sc C (spoilt ρ (m' (sc.reg .at1)) (m' (sc.reg .at2))) m' := by
  intro c hc hn
  by_cases h₂ : c = .rt .at2
  · subst h₂
    rfl
  by_cases h₁ : c = .rt .at1
  · subst h₁
    rfl
  rw [spoilt, update_of_ne h₂, update_of_ne h₁, ← hm c hc hn]
  apply hoff
  simp [Scope.reg, hC.cell_eq_iff hc (hC.rt _), h₁, h₂, hn]

theorem read_of_reads (hC : Vars sc C) (hm : Sees sc C ρ m)
    (ht : t.Reads sc C ρ t') (ctrl : Word) :
    (t.map sc.src).read (operand m ctrl (if (t.map sc.src).one then [sc.scratch.null]
      else [sc.scratch.at1, sc.scratch.at2, sc.scratch.null])) = some t' := by
  have h₁ {a x} (ha : Asm.Reads sc C ρ [] a x) := ha.operand_eq hC hm (avoid_null sc) ctrl
  have h₂ {a x} (ha : Asm.Reads sc C ρ [.at1, .at2] a x) := ha.operand_eq hC hm (avoid_all sc) ctrl
  cases ht with
  | neg ha | sign ha | bool ha => simp [Test.map, Test.one, Test.read, h₁ ha]
  | eq ha hb | lt ha hb | ltu ha hb => simp [Test.map, Test.one, Test.read, h₂ ha, h₂ hb]

theorem wpv_branch (hC : Vars sc C) {yes no : Target} {v : Bool}
    (hcode : M.code pc = some ⟨sc.resolve (.branch t yes no), n, sc.scratch⟩)
    (hzero : ρ (.rt .zero) = 0) (ht : t.Reads sc C ρ t')
    (hv : t'.eval = some v) (h₁ : sc.reg .at1 ∈ D) (h₂ : sc.reg .at2 ∈ D)
    (hnull : sc.reg .null ∈ D)
    (h : ∀ x y, M.wpv sc C D m₀ Q (sc.target (if v then yes else no)) (spoilt ρ x y) fl) :
    M.wpv sc C D m₀ Q pc ρ fl := by
  intro m hm hoff
  have hz : m sc.scratch.zero = 0 := (hm _ (hC.rt .zero) (by decide)).trans hzero
  refine wp_branch hcode hz (read_of_reads hC hm ht _) hv fun m' hoff' => ?_
  have hD : Off D m m' := hoff'.mono (by
    rintro p (rfl | rfl | rfl)
    exacts [h₁, h₂, hnull])
  have hgo := h _ _ m' (sees_spoilt hC hm hoff') (hoff.trans hD)
  cases v <;> simpa using hgo

end Machine

end DmaCpu.Asm
