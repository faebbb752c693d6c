-- SUMMARY: What the comparison helpers decide.
import DmaCpu.Asm.Vars
import DmaCpu.Cc.Compare
import DmaCpu.Lib.Sign

/-!
# The helpers

Each body ends in a jump to the address in `cw_t` or in `cw_f`, and has changed
nothing but scratch words of its image on the way.
-/
namespace DmaCpu.Cc

open Asm Machine Function

/-- The words the macros of an image leave something in. -/
def scratchOf (sc : Scope) : Set Word := {sc.reg .at1, sc.reg .at2, sc.reg .null}

section

variable {M : Machine} {Q : State → Prop} {H : Scope} {C : Set Cell} {D : Set Word} {a b : Word}
  {m : Cells} {ρ : Cell → Word} {fl : Word → Field → Word} {name record : String}

/-- The end of a helper, after it has worked out the sign in `at`. -/
theorem wpv_dispatch (hC : Vars H C) (hD : scratchOf H ⊆ D) {neg v : Bool} {yes no : String}
    (hcode : M.code.Holds H a (Helper.dispatch neg yes no) b) (hz : ρ (.rt .zero) = 0)
    (hv : ((ρ (.rt .at1)).msb == neg) = v)
    (hend : ∀ m', Off D m m' → M.wp Q (if v then ρ (.rt .cwT) else ρ (.rt .cwF)) m' fl) :
    M.wpv H C D m Q a ρ fl := by
  obtain ⟨n, hbranch, hyes, n', ht, hno, n'', hf, -⟩ := hcode
  have hmem : ∀ r ∈ [Reg.at1, .at2, .null], H.reg r ∈ D := by
    intro r hr
    refine hD ?_
    simp only [List.mem_cons, List.not_mem_nil, or_false] at hr
    rcases hr with rfl | rfl | rfl <;> simp [scratchOf]
  refine wpv_branch hC hbranch hz (.sign (.rt hC (by decide))) rfl (hmem _ (by decide))
    (hmem _ (by decide)) (hmem _ (by decide)) fun x y => ?_
  -- the two targets by what the sign says, so by `v`
  have htarget : H.target (if (ρ (.rt .at1)).msb then .label (if neg then yes else no)
      else .label (if neg then no else yes)) = if v then n else n' := by
    rw [← hv, ← hyes, ← hno]
    cases (ρ (.rt .at1)).msb <;> cases neg <;> rfl
  rw [htarget]
  cases v with
  | true => exact wpv_jumpr hC ht (.rt hC (by decide)) fun m' _ hoff => hend m' hoff
  | false => exact wpv_jumpr hC hf (.rt hC (by decide)) fun m' _ hoff => hend m' hoff

/-- What a helper decides about its operands. -/
def Helper.holds : Helper → Word → Word → Bool
  | eqz, x, _ => x == 0
  | eq, x, y => x == y
  | lt, x, y => x.slt y
  | ltu, x, y => x.ult y
  | eqzp, x, _ => x == 0
  | ltp, x, y => x.ult y

/-- The operands a helper is for. -/
def Helper.Takes : Helper → Word → Word → Prop
  | eqz, _, _ => True
  | eq, _, _ => True
  | lt, _, _ => True
  | ltu, _, _ => True
  | eqzp, x, _ => x.msb = false
  | ltp, x, y => x.msb = false ∧ y.msb = false

/-- Every helper decides what it is for. -/
theorem wpv_helper (hC : Vars H C) (hD : scratchOf H ⊆ D) (h : Helper)
    (hcode : M.code.Holds H a h.text b) (hz : ρ (.rt .zero) = 0)
    (htakes : h.Takes (ρ (.rt .cwA)) (ρ (.rt .cwB)))
    (hend : ∀ m', Off D m m' → M.wp Q
      (if h.holds (ρ (.rt .cwA)) (ρ (.rt .cwB)) then ρ (.rt .cwT) else ρ (.rt .cwF)) m' fl) :
    M.wpv H C D m Q a ρ fl := by
  have hat₁ : H.cell (.rt .at1) ∈ D := hD (by simp [scratchOf, Scope.reg])
  have hat₂ : H.cell (.rt .at2) ∈ D := hD (by simp [scratchOf, Scope.reg])
  have hnull : H.reg .null ∈ D := hD (by simp [scratchOf])
  cases h <;>
    simp only [Helper.text, List.cons_append, List.nil_append, holds_label, holds_ins] at hcode
  case eqz =>
    obtain ⟨-, _, h₁, _, h₂, hdisp⟩ := hcode
    refine wpv_bin_rt hC h₁ (by decide) hat₁ hnull ?_
    refine wpv_bin_rt hC h₂ (by decide) hat₁ hnull ?_
    refine wpv_dispatch hC hD hdisp (by simp [hz]) ?_ (by simpa using hend)
    simp only [update_self, update_apply, BinOp.eval, Cell.rt.injEq, reduceCtorEq,
      if_false, hz, msb_neg_or]
    simp [Helper.holds]
  case eq =>
    obtain ⟨-, _, h₁, _, h₂, _, h₃, hdisp⟩ := hcode
    refine wpv_bin_rt hC h₁ (by decide) hat₁ hnull ?_
    refine wpv_bin_rt hC h₂ (by decide) hat₂ hnull ?_
    refine wpv_bin_rt hC h₃ (by decide) hat₁ hnull ?_
    refine wpv_dispatch hC hD hdisp (by simp [hz]) ?_ (by simpa using hend)
    simp only [update_self, update_apply, BinOp.eval, Cell.rt.injEq, reduceCtorEq,
      if_false, hz, msb_sub_or_neg]
    simp [Helper.holds]
  case lt | ltu =>
    obtain ⟨-, _, h₁, _, h₂, _, h₃, _, h₄, _, h₅, hdisp⟩ := hcode
    refine wpv_bin_rt hC h₁ (by decide) hat₁ hnull ?_
    refine wpv_bin_rt hC h₂ (by decide) hat₂ hnull ?_
    refine wpv_bin_rt hC h₃ (by decide) hat₂ hnull ?_
    refine wpv_bin_rt hC h₄ (by decide) hat₁ hnull ?_
    refine wpv_bin_rt hC h₅ (by decide) hat₁ hnull ?_
    refine wpv_dispatch hC hD hdisp (by simp [hz]) ?_ (by simpa using hend)
    simp only [update_self, update_apply, BinOp.eval, Cell.rt.injEq, reduceCtorEq,
      if_false, msb_slt, msb_ult]
    simp [Helper.holds]
  case eqzp =>
    obtain ⟨-, _, h₁, hdisp⟩ := hcode
    refine wpv_bin hC h₁ (by decide) (.rt hC (by decide)) (.num _) (hC.rt _) hat₁ hnull ?_
    refine wpv_dispatch hC hD hdisp (by simp [hz]) ?_ (by simpa using hend)
    simp only [update_self, BinOp.eval, msb_pred htakes]
    simp [Helper.holds]
  case ltp =>
    obtain ⟨-, _, h₁, hdisp⟩ := hcode
    refine wpv_bin_rt hC h₁ (by decide) hat₁ hnull ?_
    refine wpv_dispatch hC hD hdisp (by simp [hz]) ?_ (by simpa using hend)
    simp only [update_self, BinOp.eval, msb_sub_of_nonneg htakes.1 htakes.2]
    simp [Helper.holds]

/-! ## Descriptors -/

/-- The cells a descriptor is copied to are in a row. -/
structure CwRow (H : Scope) : Prop where
  t : H.reg .cwT = H.reg .cwPb + 4
  f : H.reg .cwF = H.reg .cwPb + 8
  pa : H.reg .cwPa = H.reg .cwPb + 12

/-- The cells of the helpers. -/
def cellsOf (H : Scope) : Set Word :=
  {H.reg .cwA, H.reg .cwB, H.reg .cwD, H.reg .cwPb, H.reg .cwT, H.reg .cwF, H.reg .cwPa}

/-- The word at `p` is `x`, out of the way of the words in `D`. -/
structure Steady (D : Set Word) (m : Cells) (p x : Word) : Prop where
  aligned : Aligned p .word
  apart : p ∉ D
  val : m p = x

/-- The words `ws` stand from `p` on. -/
structure Stored (D : Set Word) (m : Cells) (p : Word) (ws : List Word) : Prop where
  aligned : Aligned p .word
  val (i : Nat) (hi : i < ws.length) : Steady D m (p + BitVec.ofNat 32 (i * 4)) ws[i]

theorem Steady.off {p x : Word} {m' : Cells} (h : Steady D m p x) (hoff : Off D m m') :
    Steady D m' p x :=
  ⟨h.aligned, h.apart, (hoff p h.apart).trans h.val⟩

/-- A descriptor is copied onto a row of cells. -/
theorem wp_unpackRow {c r d n : Word} {scr scr' : Scratch} (ws : List Word)
    (hpatch : M.code a = some ⟨.move (.cell c) (.field r .read) {}, r, scr⟩)
    (hcode : M.code r = some ⟨.move .own (.cell d) (.words ws.length), n, scr'⟩)
    (hc : Aligned c .word) (hd : Aligned d .word) (hlen : ws.length < 2 ^ 30)
    (hrow : ∀ i < ws.length, d + BitVec.ofNat 32 (i * 4) ∈ D) (hdesc : Stored D m (m c) ws)
    (h : ∀ m' fl', Off D m m' →
      (∀ i (hi : i < ws.length), m' (d + BitVec.ofNat 32 (i * 4)) = ws[i]) → M.wp Q n m' fl') :
    M.wp Q a m fl := by
  have hcells : wordsAt d 0 ws.length ⊆ D := by
    rintro p ⟨k, -, hk, rfl⟩
    exact hrow k (by omega)
  refine wp_indirect_words hpatch hcode hc hdesc.aligned hd fun fl' => h _ fl' ?_ fun i hi => ?_
  · exact (off_copyWords ws.length 0 m).mono hcells
  · rw [copyWords_apply (by omega) ?_ (Nat.zero_le i) (by omega)]
    · exact (hdesc.val i hi).val
    · intro k _ hk hmem
      exact (hdesc.val k (by omega)).apart (hcells hmem)

/-- A descriptor with one operand is unpacked. -/
theorem wp_unpack1 (hC : Vars H C) (hrow : CwRow H) {t f q x : Word}
    (hcode : M.code.Holds H a (Helper.unpack1 name record) b) (hD : cellsOf H ⊆ D)
    (hdesc : Stored D m (m (H.reg .cwD)) [t, f, q]) (hq : Steady D m q x)
    (hend : ∀ m' fl', Off D m m' → m' (H.reg .cwT) = t → m' (H.reg .cwF) = f →
      m' (H.reg .cwA) = x → M.wp Q (H.label ("__cw_" ++ name)) m' fl') :
    M.wp Q a m fl := by
  simp only [Helper.unpack1, holds_ins, holds_label, holds_nil, Scope.resolve, Instr.map,
    Scope.src_rt, Scope.dst_rt, Scope.src_own, Scope.dst_field, Scope.target] at hcode
  obtain ⟨-, n₁, h₁, rfl, n₂, h₂, n₃, h₃, rfl, n₄, h₄, n₅, h₅, -⟩ := hcode
  have hal (r : Reg) : Aligned (H.reg r) .word := hC.aligned (hC.rt r)
  have hF : H.reg .cwT + BitVec.ofNat 32 (1 * 4) = H.reg .cwF := by
    rw [hrow.t, hrow.f]
    bv_omega
  have hPa : H.reg .cwT + BitVec.ofNat 32 (2 * 4) = H.reg .cwPa := by
    rw [hrow.t, hrow.pa]
    bv_omega
  have hmem : ∀ i < 3, H.reg .cwT + BitVec.ofNat 32 (i * 4) ∈ D := by
    intro i hi
    refine hD ?_
    obtain rfl | rfl | rfl : i = 0 ∨ i = 1 ∨ i = 2 := by omega
    · simp [cellsOf]
    · simp [hF, cellsOf]
    · simp [hPa, cellsOf]
  refine wp_unpackRow [t, f, q] h₁ h₂ (hal _) (hal _) (by simp) hmem hdesc
    fun m₁ fl₁ hoff hval => ?_
  have hT' : m₁ (H.reg .cwT) = t := by simpa using hval 0 (by simp)
  have hF' : m₁ (H.reg .cwF) = f := hF ▸ hval 1 (by simp)
  have hPa' : m₁ (H.reg .cwPa) = q := hPa ▸ hval 2 (by simp)
  refine wp_indirect h₃ h₄ (hal _) (hPa' ▸ hq.aligned) (hal _) fun fl₂ => ?_
  rw [hPa', (hq.off hoff).val]
  refine wp_jump h₅ (hend _ _ (hoff.update (hD (by simp [cellsOf])) _) ?_ ?_ ?_)
  · simp [hC.reg_eq_iff, hT']
  · simp [hC.reg_eq_iff, hF']
  · simp

/-- A descriptor with two operands is unpacked. -/
theorem wp_unpack2 (hC : Vars H C) (hrow : CwRow H) {t f q q' x y : Word}
    (hcode : M.code.Holds H a (Helper.unpack2 name record) b) (hD : cellsOf H ⊆ D)
    (hdesc : Stored D m (m (H.reg .cwD)) [q', t, f, q]) (hq : Steady D m q x)
    (hq' : Steady D m q' y)
    (hend : ∀ m' fl', Off D m m' → m' (H.reg .cwT) = t → m' (H.reg .cwF) = f →
      m' (H.reg .cwA) = x → m' (H.reg .cwB) = y →
        M.wp Q (H.label ("__cw_" ++ name)) m' fl') :
    M.wp Q a m fl := by
  simp only [Helper.unpack2, holds_ins, holds_label, holds_nil, Scope.resolve, Instr.map,
    Scope.src_rt, Scope.dst_rt, Scope.src_own, Scope.dst_field, Scope.target] at hcode
  obtain ⟨-, n₁, h₁, rfl, n₂, h₂, n₃, h₃, rfl, n₄, h₄, n₅, h₅, rfl, n₆, h₆, n₇, h₇, -⟩ := hcode
  have hal (r : Reg) : Aligned (H.reg r) .word := hC.aligned (hC.rt r)
  have hT : H.reg .cwPb + BitVec.ofNat 32 (1 * 4) = H.reg .cwT := hrow.t.symm
  have hF : H.reg .cwPb + BitVec.ofNat 32 (2 * 4) = H.reg .cwF := hrow.f.symm
  have hPa : H.reg .cwPb + BitVec.ofNat 32 (3 * 4) = H.reg .cwPa := hrow.pa.symm
  have hmem : ∀ i < 4, H.reg .cwPb + BitVec.ofNat 32 (i * 4) ∈ D := by
    intro i hi
    refine hD ?_
    obtain rfl | rfl | rfl | rfl : i = 0 ∨ i = 1 ∨ i = 2 ∨ i = 3 := by omega
    · simp [cellsOf]
    · simp [hT, cellsOf]
    · simp [hF, cellsOf]
    · simp [hPa, cellsOf]
  refine wp_unpackRow [q', t, f, q] h₁ h₂ (hal _) (hal _) (by simp) hmem hdesc
    fun m₁ fl₁ hoff hval => ?_
  have hPb' : m₁ (H.reg .cwPb) = q' := by simpa using hval 0 (by simp)
  have hT' : m₁ (H.reg .cwT) = t := hT ▸ hval 1 (by simp)
  have hF' : m₁ (H.reg .cwF) = f := hF ▸ hval 2 (by simp)
  have hPa' : m₁ (H.reg .cwPa) = q := hPa ▸ hval 3 (by simp)
  refine wp_indirect h₃ h₄ (hal _) (hPa' ▸ hq.aligned) (hal _) fun fl₂ => ?_
  rw [hPa', (hq.off hoff).val]
  have hoff₂ := hoff.update (hD (show H.reg .cwA ∈ cellsOf H by simp [cellsOf])) x
  have hPb₂ : update m₁ (H.reg .cwA) x (H.reg .cwPb) = q' := by
    rw [update_of_ne (hC.reg_ne (by decide)), hPb']
  refine wp_indirect h₅ h₆ (hal _) (hPb₂ ▸ hq'.aligned) (hal _) fun fl₃ => ?_
  rw [hPb₂, (hq'.off hoff₂).val]
  refine wp_jump h₇ (hend _ _ (hoff₂.update (hD (by simp [cellsOf])) _) ?_ ?_ ?_ ?_)
  · simp [hC.reg_eq_iff, hT']
  · simp [hC.reg_eq_iff, hF']
  · simp [hC.reg_eq_iff]
  · simp

end

end DmaCpu.Cc
