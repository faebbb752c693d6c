-- SUMMARY: Comparison sites: every form of a site goes where its helper's condition says.
import DmaCpu.Cc.Helpers

/-!
# Sites

A site and the helpers it uses may be in two images, a guest and its host. `S` are
the symbols of the site's image and `H` those of the helpers'; an image with helpers
of its own has both in one.
-/
namespace DmaCpu.Cc

open Asm Machine List

/-! ## Images -/

/-- What the sites and helpers write to: the scratch words of both images and the
    helpers' cells. -/
def dirty (S H : Scope) : Set Word := scratchOf S ∪ scratchOf H ∪ cellsOf H

/-- The words a sign extension goes to. -/
def extended (S : Scope) : Set Word := {S.reg .sc0, S.reg .sc1}

/-- The runtime words of the two images: they may be the same, but no word of one is
    another word of the other. -/
structure Images (S H : Scope) : Prop where
  site : Vars S (Set.range Cell.rt)
  host : Vars H (Set.range Cell.rt)
  row : CwRow H
  apart {r r' : Reg} (h : S.reg r = H.reg r') : r = r'

/-- How a site gets at the helpers: they are in its own image, or behind the host's
    vector page. -/
inductive Linked (M : Machine) (S H : Scope) : Option ExternRT → Prop where
  | own (h : S = H) : Linked M S H none
  | guest {x : ExternRT}
      (cells : ∀ r ∈ vecCwCells, H.reg r = x.vec + vecCwOff r)
      (nonzero : ∀ r ∈ vecCwCells, H.reg r ≠ 0)
      (slots : ∀ name, ("cw", name) ∈ vecSlots → ∃ n scr,
        M.code (x.vec + vecSlotOff "cw" name) = some ⟨.jump (H.label ("__cw_" ++ name)), n, scr⟩) :
      Linked M S H (some x)

/-- The word of a datum. -/
def datum (S : Scope) : Datum → Word
  | .num v => v
  | .cell c => S.cell c
  | .label l => S.label l

/-- Code and memory hold what the code generator has gathered. -/
structure Placed (M : Machine) (S H : Scope) (x : Option ExternRT) (g : Gen) (m : Cells) : Prop where
  images : Images S H
  linked : Linked M S H x
  text : ∀ h ∈ g.cmpUsed, ∃ b, M.code.Holds H (H.label ("__cw_" ++ h.name)) h.text b
  descText : ∀ h ∈ g.cmpUsedD, ∃ b,
    M.code.Holds H (H.label ("__cw_" ++ h.name ++ "_d")) h.descText b
  data : ∀ d ∈ g.desc,
    Stored (dirty S H ∪ extended S) m (S.cell (.word d.1)) (d.2.map (datum S))
  zero : m (S.reg .zero) = 0
  hostZero : m (H.reg .zero) = 0

/-- An operand reads as `x`, also when words in `D` have changed. -/
inductive Fixed (S : Scope) (D : Set Word) (m : Cells) (a : Opnd) (x : Word) : Prop where
  | lit (h : S.src a = .lit x)
  | cell {p : Word} (h : S.src a = .cell p) (hp : Steady D m p x)

variable {p : Word} {r : Reg} {h : Helper} {fc : Ctx} {b : Option Opnd} {f t : String}
variable {o : Option Datum} {ws : List Word}

section

variable {M : Machine} {Q : State → Prop} {S H : Scope} {D E : Set Word} {m m' : Cells}
  {x y pc e : Word} {a : Opnd} {fl : Word → Field → Word} {ext : Option ExternRT} {g g' : Gen}

theorem Steady.mono (h : Steady D m p x) (hE : E ⊆ D) : Steady E m p x :=
  ⟨h.aligned, fun hp => h.apart (hE hp), h.val⟩

theorem Stored.mono (h : Stored D m p ws) (hE : E ⊆ D) : Stored E m p ws :=
  ⟨h.aligned, fun i hi => (h.val i hi).mono hE⟩

theorem Stored.off (h : Stored D m p ws) (hoff : Off D m m') :
    Stored D m' p ws :=
  ⟨h.aligned, fun i hi => (h.val i hi).off hoff⟩

theorem Fixed.mono (h : Fixed S D m a x) (hE : E ⊆ D) : Fixed S E m a x := by
  cases h with
  | lit h => exact .lit h
  | cell h hp => exact .cell h (hp.mono hE)

theorem Fixed.off (h : Fixed S D m a x) (hoff : Off D m m') : Fixed S D m' a x := by
  cases h with
  | lit h => exact .lit h
  | cell h hp => exact .cell h (hp.off hoff)

theorem Fixed.operand_eq (h : Fixed S D m a x) {avoid : List Word} (hD : ∀ p ∈ avoid, p ∈ D)
    (ctrl : Word) : operand m ctrl avoid (S.src a) = some x := by
  cases h with
  | lit h => simp [h, operand]
  | cell h hp => simp [h, operand, mt (hD _) hp.apart, Cells.load_word hp.aligned, hp.val]

/-- The runtime words that sites and helpers write to. -/
def dirtyRegs : List Reg := [.at1, .at2, .null] ++ vecCwCells

theorem exists_reg_of_mem_dirty (hp : p ∈ dirty S H) :
    ∃ r ∈ dirtyRegs, p = S.reg r ∨ p = H.reg r := by
  rcases hp with (hp | hp) | hp
  · rcases hp with rfl | rfl | rfl <;> exact ⟨_, by decide, .inl rfl⟩
  · rcases hp with rfl | rfl | rfl <;> exact ⟨_, by decide, .inr rfl⟩
  · rcases hp with rfl | rfl | rfl | rfl | rfl | rfl | rfl <;> exact ⟨_, by decide, .inr rfl⟩

namespace Images

variable (hi : Images S H)

include hi

theorem site_notMem (hr : r ∉ dirtyRegs) : S.reg r ∉ dirty S H := by
  intro hp
  obtain ⟨r', hr', heq | heq⟩ := exists_reg_of_mem_dirty hp
  · exact hi.site.reg_ne (fun (h : r = r') => hr (h ▸ hr')) heq
  · exact hr (hi.apart heq ▸ hr')

theorem host_notMem (hr : r ∉ dirtyRegs) : H.reg r ∉ dirty S H := by
  intro hp
  obtain ⟨r', hr', heq | heq⟩ := exists_reg_of_mem_dirty hp
  · exact hr (hi.apart heq.symm ▸ hr')
  · exact hi.host.reg_ne (fun (h : r = r') => hr (h ▸ hr')) heq

end Images

/-! ## Into a helper -/

/-- A helper that looks at one operand only. -/
def Helper.unary : Helper → Bool
  | eqz | eqzp => true
  | eq | lt | ltu | ltp => false

theorem Helper.holds_unary (hu : h.unary = true) (x y z : Word) : h.holds x y = h.holds x z := by
  cases h <;> first | rfl | cases hu

theorem Helper.takes_unary (hu : h.unary = true) {x y : Word} (ht : h.Takes x y)
    (z : Word) : h.Takes x z := by
  cases h <;> first | exact ht | cases hu

theorem Linked.dst_cw (hl : Linked M S H fc.opts.runtimeExtern)
    (hr : r ∈ vecCwCells) : S.dst (fc.cw r) = .cell (H.reg r) := by
  unfold Ctx.cw
  generalize fc.opts.runtimeExtern = x at hl
  cases hl with
  | own h => simp [h]
  | guest cells nonzero slots =>
    have hne := nonzero r hr
    rw [cells r hr] at hne
    rw [Scope.dst, if_neg hne, cells r hr]

theorem wp_cwJump (hl : Linked M S H fc.opts.runtimeExtern) {name : String}
    (hname : ("cw", name) ∈ vecSlots) (hcode : M.code.Holds S pc [fc.cwJump name] e)
    (h : M.wp Q (H.label ("__cw_" ++ name)) m fl) : M.wp Q pc m fl := by
  unfold Ctx.cwJump at hcode
  generalize fc.opts.runtimeExtern = x at hl hcode
  cases hl with
  | own heq =>
    obtain ⟨n, hjump, -⟩ := hcode
    exact wp_jump hjump (heq ▸ h)
  | guest cells nonzero slots =>
    obtain ⟨n, hjump, -⟩ := hcode
    obtain ⟨n', scr, hslot⟩ := slots name hname
    exact wp_jump hjump (wp_jump hslot h)

/-- A helper is entered, its cells being filled. -/
theorem wp_enter {t f : Word} (hp : Placed M S H ext g m) (hh : h ∈ g.cmpUsed)
    (hoff : Off (dirty S H) m m') (hT : m' (H.reg .cwT) = t) (hF : m' (H.reg .cwF) = f)
    (hA : m' (H.reg .cwA) = x) (hB : h.unary = false → m' (H.reg .cwB) = y) (htakes : h.Takes x y)
    (hend : ∀ m'' fl', Off (dirty S H) m m'' → M.wp Q (if h.holds x y then t else f) m'' fl') :
    M.wp Q (H.label ("__cw_" ++ h.name)) m' fl := by
  obtain ⟨b, hb⟩ := hp.text h hh
  have hD : scratchOf H ⊆ dirty S H := fun p hp => .inl (.inr hp)
  have hz : m' (H.reg .zero) = 0 :=
    (hoff _ (hp.images.host_notMem (by decide))).trans hp.hostZero
  have hsame : h.holds x (m' (H.reg .cwB)) = h.holds x y ∧ h.Takes x (m' (H.reg .cwB)) := by
    cases hu : h.unary with
    | true => exact ⟨Helper.holds_unary hu _ _ _, Helper.takes_unary hu htakes _⟩
    | false => exact ⟨by rw [hB hu], by rwa [hB hu]⟩
  have hrun : M.wpv H (Set.range Cell.rt) (dirty S H) m Q (H.label ("__cw_" ++ h.name))
      (fun c => m' (H.cell c)) fl := by
    refine wpv_helper hp.images.host hD h hb hz (hA.symm ▸ hsame.2) fun m'' hoff' => ?_
    have hgo := hend m'' fl hoff'
    rw [← hsame.1, ← hT, ← hF, ← hA] at hgo
    exact hgo
  exact hrun m' (fun c _ _ => rfl) hoff

/-- What a site has for the second operand of its helper, `P` being its relation to the
    operand's value. -/
def Second {α : Type} (h : Helper) (P : α → Word → Prop) : Option α → Word → Prop
  | none, y => h.unary = true ∧ y = 0
  | some b, y => h.unary = false ∧ P b y

/-! ## Forms of a site -/

/-- A move into a cell of the helpers. -/
theorem wp_toCell {n : Word} (hi : Images S H) (hl : Linked M S H fc.opts.runtimeExtern)
    (hr : r ∈ vecCwCells)
    (hcode : M.code pc = some ⟨S.resolve (.move a (fc.cw r) {}), n, S.scratch⟩)
    (ha : Fixed S D m a x) (h : M.wp Q n (Function.update m (H.reg r) x) fl) : M.wp Q pc m fl := by
  simp only [Scope.resolve, Instr.map, hl.dst_cw hr] at hcode
  exact wp_move hcode (ha.operand_eq (by simp) _) (hi.host.aligned (hi.host.rt r)) h

theorem mem_dirty_of_cell (hr : r ∈ vecCwCells) : H.reg r ∈ dirty S H := by
  refine .inr ?_
  simp only [vecCwCells, mem_cons, not_mem_nil, or_false] at hr
  rcases hr with rfl | rfl | rfl | rfl | rfl | rfl | rfl <;> simp [cellsOf]

theorem Helper.slot (h : Helper) :
    ("cw", h.name) ∈ vecSlots ∧ ("cw", h.name ++ "_d") ∈ vecSlots := by
  cases h <;> decide

/-- The macro for a condition of two operands. -/
inductive Compares (a b : Opnd) (x y : Word) : Test Opnd → Bool → Prop where
  | eq : Compares a b x y (.eq a b) (x == y)
  | lt : Compares a b x y (.lt a b) (x.slt y)
  | ltu : Compares a b x y (.ltu a b) (x.ult y)

theorem wp_compares {b : Opnd} {c : Test Opnd} {v : Bool} {t f : Target} {n : Word}
    (hc : Compares a b x y c v) (hD : scratchOf S ⊆ D) (hz : m (S.reg .zero) = 0)
    (hcode : M.code pc = some ⟨S.resolve (.branch c t f), n, S.scratch⟩)
    (ha : Fixed S D m a x) (hb : Fixed S D m b y)
    (hend : ∀ m' fl', Off D m m' → M.wp Q (if v then S.target t else S.target f) m' fl') :
    M.wp Q pc m fl := by
  have havoid : ∀ p ∈ [S.scratch.at1, S.scratch.at2, S.scratch.null], p ∈ D := by
    intro p hp
    refine hD ?_
    simpa [scratchOf, Scope.scratch] using hp
  have ha' := ha.operand_eq havoid M.sniff
  have hb' := hb.operand_eq havoid M.sniff
  cases hc with
  | eq =>
    refine wp_branch hcode hz (?_ : _ = some (.eq x y)) rfl
      fun m' hoff => hend m' fl (hoff.mono hD)
    simp [Test.map, Test.one, Test.read, ha', hb']
  | lt =>
    refine wp_branch hcode hz (?_ : _ = some (.lt x y)) rfl
      fun m' hoff => hend m' fl (hoff.mono hD)
    simp [Test.map, Test.one, Test.read, ha', hb']
  | ltu =>
    refine wp_branch hcode hz (?_ : _ = some (.ltu x y)) rfl
      fun m' hoff => hend m' fl (hoff.mono hD)
    simp [Test.map, Test.one, Test.read, ha', hb']

/-- A branch with its targets swapped. -/
theorem wp_swap {v v' : Bool} (hv : v = !v')
    (hend : ∀ m' fl', Off D m m' → M.wp Q (if v then S.label t else S.label f) m' fl') :
    ∀ m' fl', Off D m m' → M.wp Q (if v' then S.label f else S.label t) m' fl' := by
  intro m' fl' hoff
  have hgo := hend m' fl' hoff
  rw [hv] at hgo
  cases v' <;> exact hgo

theorem wp_inlineCompare {b : Opnd} {pred : Pred} (hD : scratchOf S ⊆ D) (hz : m (S.reg .zero) = 0)
    (hcode : M.code.Holds S pc (emitInlineCompare pred a b t f) e) (ha : Fixed S D m a x)
    (hb : Fixed S D m b y) (hend : ∀ m' fl', Off D m m' →
      M.wp Q (if pred.eval x y then S.label t else S.label f) m' fl') :
    M.wp Q pc m fl := by
  cases pred <;> simp only [emitInlineCompare, holds_ins] at hcode <;>
    obtain ⟨n, hcode, -⟩ := hcode
  case eq => exact wp_compares .eq hD hz hcode ha hb hend
  case ne => exact wp_compares .eq hD hz hcode ha hb (wp_swap rfl hend)
  case slt => exact wp_compares .lt hD hz hcode ha hb hend
  case sge => exact wp_compares .lt hD hz hcode ha hb (wp_swap BitVec.sle_eq_not_slt hend)
  case sgt => exact wp_compares .lt hD hz hcode hb ha hend
  case sle => exact wp_compares .lt hD hz hcode hb ha (wp_swap BitVec.sle_eq_not_slt hend)
  case ult => exact wp_compares .ltu hD hz hcode ha hb hend
  case uge => exact wp_compares .ltu hD hz hcode ha hb (wp_swap (BitVec.ule_eq_not_ult _ _) hend)
  case ugt => exact wp_compares .ltu hD hz hcode hb ha hend
  case ule => exact wp_compares .ltu hD hz hcode hb ha (wp_swap (BitVec.ule_eq_not_ult _ _) hend)

/-- A helper's condition as the predicate its sites are inlined with. -/
theorem Helper.inlinePred_eval (htakes : h.Takes x y) (hy : h.unary = true → y = 0) :
    h.inlinePred.eval x y = h.holds x y := by
  cases h with
  | eqz => rw [hy rfl]; rfl
  | eqzp => rw [hy rfl]; rfl
  | eq => rfl
  | lt => rfl
  | ltu => rfl
  | ltp => exact BitVec.slt_eq_ult_of_msb_eq (htakes.1.trans htakes.2.symm)

theorem litDatum_src {d : Datum} (h : litDatum a = some d) : S.src a = .lit (datum S d) := by
  cases a <;> simp_all [litDatum, Scope.src, datum] <;> grind [datum]

/-- The ways an operand gets the symbol of a word. -/
inductive Addressed (a : Opnd) (g : Gen) : Option Datum → Gen → Prop where
  | none : Addressed a g none g
  | cell {c : Cell} (h : a = .cell c 0) : Addressed a g (some (.cell c)) g
  | text {l : String} (h : a = .text l 0) : Addressed a g (some (.label l)) g
  | const {sym : String} {d : Datum} {g' : Gen} (hd : litDatum a = some d)
      (hmem : (sym, [d]) ∈ g'.desc) (hdesc : g.desc ⊆ g'.desc) (hused : g'.cmpUsed = g.cmpUsed) :
      Addressed a g (some (.cell (.word sym))) g'

theorem addressed_wordAddr (a : Opnd) (g : Gen) : Addressed a g (wordAddr a g).1 (wordAddr a g).2 := by
  unfold wordAddr
  split
  case h_1 c off =>
    split
    · subst off
      exact .cell rfl
    · exact .none
  case h_2 l off =>
    split
    · subst off
      exact .text rfl
    · exact .none
  case h_3 =>
    split
    case h_1 => exact .none
    case h_2 d hd =>
      split
      case h_1 sym hsym =>
        obtain ⟨l₁, l₂, hl, -⟩ := lookup_eq_some_iff.mp hsym
        obtain ⟨d', hd', hdesc⟩ := g.declared (a, sym) (by simp [hl])
        exact .const hd' hdesc (Subset.refl _) rfl
      case h_2 =>
        refine .const hd ?_ ?_ rfl
        · simp [Gen.addConst, Gen.addDesc]
        · simp [Gen.addConst, Gen.addDesc]

/-- The symbol of an operand's word is that of a word that holds the operand. -/
theorem Addressed.steady {d : Datum} (h : Addressed a g (some d) g') (ha : Fixed S D m a x)
    (hdata : ∀ p ∈ g'.desc, Stored D m (S.cell (.word p.1)) (p.2.map (datum S))) :
    Steady D m (datum S d) x := by
  have hself {p : Word} (hsrc : S.src a = .cell p) : Steady D m p x := by
    cases ha with
    | lit hl => simp [hsrc] at hl
    | cell hc hp => exact Src.cell.inj (hsrc.symm.trans hc) ▸ hp
  cases h with
  | cell h | text h => exact hself (by simp [h, Scope.src, datum])
  | @const sym d _ hd hmem hdesc hused =>
    have hx : x = datum S d := by
      cases ha with
      | lit hl => simpa [litDatum_src hd] using hl.symm
      | cell hc _ => simp [litDatum_src hd] at hc
    simpa [hx, datum] using (hdata _ hmem).val 0 (by simp)

theorem Addressed.desc_subset (h : Addressed a g o g') : g.desc ⊆ g'.desc := by
  cases h with
  | const _ _ hdesc _ => exact hdesc
  | none | cell _ | text _ => exact Subset.refl _

theorem Addressed.cmpUsed_eq (h : Addressed a g o g') :
    g'.cmpUsed = g.cmpUsed := by
  cases h with
  | const _ _ _ hused => exact hused
  | none => rfl
  | cell _ => rfl
  | text _ => rfl

theorem Helper.descText_unary (hu : h.unary = true) :
    ∃ record, h.descText = unpack1 h.name record := by
  cases h <;> first | exact ⟨_, rfl⟩ | cases hu

theorem Helper.descText_binary (hu : h.unary = false) :
    ∃ record, h.descText = unpack2 h.name record := by
  cases h <;> first | exact ⟨_, rfl⟩ | cases hu

section

variable (htakes : h.Takes x y) (hend : ∀ m' fl', Off (dirty S H) m m' →
  M.wp Q (if h.holds x y then S.label t else S.label f) m' fl')
include htakes hend

theorem wp_fourMove (hp : Placed M S H fc.opts.runtimeExtern g m) (hh : h ∈ g.cmpUsed)
    (hcode : M.code.Holds S pc (fc.fourMoveSite h a b t f) e) (ha : Fixed S (dirty S H) m a x)
    (hb : Second h (Fixed S (dirty S H) m) b y) : M.wp Q pc m fl := by
  have hi := hp.images
  have hl := hp.linked
  obtain ⟨n₁, h₁, n₂, h₂, n₃, h₃, hcode⟩ := hcode
  have hlbl (m : Cells) (l : String) : Fixed S (dirty S H) m (lbl l) (S.label l) :=
    .lit (by simp [lbl, Scope.src])
  refine wp_toCell hi hl (by decide) h₁ (hlbl _ _) ?_
  have hoff₁ := (Off.refl (dirty S H) m).update
    (mem_dirty_of_cell (r := .cwT) (by decide)) (S.label t)
  refine wp_toCell hi hl (by decide) h₂ (hlbl _ _) ?_
  have hoff₂ := hoff₁.update (mem_dirty_of_cell (r := .cwF) (by decide)) (S.label f)
  refine wp_toCell hi hl (by decide) h₃ (ha.off hoff₂) ?_
  have hoff₃ := hoff₂.update (mem_dirty_of_cell (r := .cwA) (by decide)) x
  cases b with
  | none =>
    refine wp_cwJump hl h.slot.1 hcode (wp_enter hp hh hoff₃ ?_ ?_ ?_ ?_ htakes hend)
    · simp [hi.host.reg_eq_iff]
    · simp [hi.host.reg_eq_iff]
    · simp
    · simp [hb.1]
  | some b =>
    obtain ⟨n₄, h₄, hcode⟩ := hcode
    have hoff₄ := hoff₃.update (mem_dirty_of_cell (r := .cwB) (by decide)) y
    refine wp_toCell hi hl (by decide) h₄ (hb.2.off hoff₃) ?_
    refine wp_cwJump hl h.slot.1 hcode (wp_enter hp hh hoff₄ ?_ ?_ ?_ ?_ htakes hend)
    · simp [hi.host.reg_eq_iff]
    · simp [hi.host.reg_eq_iff]
    · simp [hi.host.reg_eq_iff]
    · simp

theorem wp_descriptor {pa : Datum} {pb : Option Datum}
    (hp : Placed M S H fc.opts.runtimeExtern (fc.descriptorSite h pa pb t f g).2 m)
    (hh : h ∈ g.cmpUsed) (hcode : M.code.Holds S pc (fc.descriptorSite h pa pb t f g).1 e)
    (ha : Steady (dirty S H) m (datum S pa) x)
    (hb : Second h (fun d => Steady (dirty S H) m (datum S d)) pb y) : M.wp Q pc m fl := by
  have hi := hp.images
  obtain ⟨n, hmove, hjump⟩ := hcode
  set name := "cwd_" ++ toString (g.stubN + 1)
  have hstored : Stored (dirty S H) m (S.cell (.word name))
      ((pb.toList ++ [.label t, .label f, pa]).map (datum S)) :=
    (hp.data (name, _) (by simp [Ctx.descriptorSite, Gen.addDesc, name])).mono Set.subset_union_left
  have hD : cellsOf H ⊆ dirty S H := Set.subset_union_right
  refine wp_toCell (x := S.cell (.word name)) (D := dirty S H) hi hp.linked (by decide) hmove
    (.lit (by simp [Scope.src])) ?_
  have hoff := (Off.refl (dirty S H) m).update (mem_dirty_of_cell (r := .cwD) (by decide))
    (S.cell (.word name))
  obtain ⟨b, hbody⟩ := hp.descText h (by simp [Ctx.descriptorSite])
  refine wp_cwJump hp.linked h.slot.2 hjump ?_
  cases pb with
  | none =>
    obtain ⟨record, hrec⟩ := Helper.descText_unary hb.1
    rw [hrec] at hbody
    refine wp_unpack1 hi.host hi.row hbody hD (by simpa using hstored.off hoff) (ha.off hoff)
      fun m₂ fl₂ hoff₂ hT hF hA => ?_
    exact wp_enter hp hh (hoff.trans hoff₂) hT hF hA (by simp [hb.1]) htakes hend
  | some d =>
    obtain ⟨record, hrec⟩ := Helper.descText_binary hb.1
    rw [hrec] at hbody
    refine wp_unpack2 hi.host hi.row hbody hD (by simpa using hstored.off hoff) (ha.off hoff)
      (hb.2.off hoff) fun m₂ fl₂ hoff₂ hT hF hA hB => ?_
    exact wp_enter hp hh (hoff.trans hoff₂) hT hF hA (fun _ => hB) htakes hend

theorem wp_outlined {site : String}
    (hp : Placed M S H fc.opts.runtimeExtern (fc.outlinedSite site h a b t f g).2 m)
    (hcode : M.code.Holds S pc (fc.outlinedSite site h a b t f g).1 e)
    (ha : Fixed S (dirty S H) m a x) (hb : Second h (Fixed S (dirty S H) m) b y) :
    M.wp Q pc m fl := by
  simp only [Ctx.outlinedSite] at hp hcode
  have hda := addressed_wordAddr a { g with cmpUsed := h :: g.cmpUsed }
  generalize wordAddr a { g with cmpUsed := h :: g.cmpUsed } = pa at hda hp hcode
  obtain ⟨oa, g₁⟩ := pa
  have hh₁ : h ∈ g₁.cmpUsed := hda.cmpUsed_eq ▸ mem_cons_self
  cases oa with
  | none => exact wp_fourMove htakes hend hp hh₁ hcode ha hb
  | some pa =>
    simp only at hp hcode
    split at hcode
    case isTrue hfour =>
      rw [if_pos hfour] at hp
      exact wp_fourMove htakes hend hp hh₁ hcode ha hb
    case isFalse hfour =>
      rw [if_neg hfour] at hp
      cases b with
      | none =>
        have hdata := fun p hmem => (hp.data p (mem_append_left _ hmem)).mono
          Set.subset_union_left
        exact wp_descriptor htakes hend hp hh₁ hcode (hda.steady ha hdata) hb
      | some b =>
        simp only [Ctx.wordAddr2] at hp hcode
        have hdb := addressed_wordAddr b g₁
        generalize wordAddr b g₁ = pb at hdb hp hcode
        obtain ⟨ob, g₂⟩ := pb
        have hh₂ : h ∈ g₂.cmpUsed := hdb.cmpUsed_eq ▸ hh₁
        cases ob with
        | none => exact wp_fourMove htakes hend hp hh₂ hcode ha hb
        | some pb =>
          have hdata := fun p hmem => (hp.data p (mem_append_left _ hmem)).mono
            Set.subset_union_left
          have hdata₁ := fun p hmem => hdata p (hdb.desc_subset hmem)
          exact wp_descriptor htakes hend hp hh₂ hcode (hda.steady ha hdata₁)
            ⟨hb.1, hdb.steady hb.2 hdata⟩

end

/-- Every site goes where its helper's condition says. -/
theorem wp_cmpSite (hp : Placed M S H fc.opts.runtimeExtern (fc.emitCmpSite h a b t f g).2 m)
    (hcode : M.code.Holds S pc (fc.emitCmpSite h a b t f g).1 e) (ha : Fixed S (dirty S H) m a x)
    (hb : Second h (Fixed S (dirty S H) m) b y) (htakes : h.Takes x y)
    (hend : ∀ m' fl', Off (dirty S H) m m' →
      M.wp Q (if h.holds x y then S.label t else S.label f) m' fl') :
    M.wp Q pc m fl := by
  simp only [Ctx.emitCmpSite] at hp hcode
  split at hcode
  case isTrue hinline =>
    have hD : scratchOf S ⊆ dirty S H := fun p hp => .inl (.inl hp)
    have hy : h.unary = true → y = 0 := by
      intro hu
      cases b with
      | none => exact hb.2
      | some b => cases hu.symm.trans hb.1
    have hb' : Fixed S (dirty S H) m (b.getD (.num 0)) y := by
      cases b with
      | none => exact .lit (by rw [hb.2]; rfl)
      | some b => exact hb.2
    refine wp_inlineCompare hD hp.zero hcode.2 ha hb' fun m' fl' hoff => ?_
    rw [Helper.inlinePred_eval htakes hy]
    exact hend m' fl' hoff
  case isFalse hinline =>
    rw [if_neg hinline] at hp
    exact wp_outlined htakes hend hp hcode.2 ha hb

end

end DmaCpu.Cc
