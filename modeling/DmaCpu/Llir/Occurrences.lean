-- SUMMARY: Where a module names a symbol, and the names its occurrences have after the first pass.
import Mathlib.Data.List.Nodup
import DmaCpu.Llir.Module

/-!
# Occurrences

Every place of a module that names a symbol, in one order of traversal, so that the
occurrences before and after the first pass of `Merge` can be laid side by side.
-/
namespace DmaCpu.Llir

/-! ## Names -/

def Value.syms (v : Value) : List String :=
  if v.kind = .global ∨ v.kind = .func then [v.name] else []

mutual

def Init.syms : Init → List String
  | .node sym elems => sym :: Init.symsAll elems

def Init.symsAll : List Init → List String
  | [] => []
  | i :: is => i.syms ++ Init.symsAll is

end

def Instr.syms (ins : Instr) : List String :=
  ins.args.flatMap Value.syms ++ ins.calleeVal.toList.flatMap Value.syms ++
    ins.phi.flatMap Value.syms ++ [ins.callee]

def Func.syms (f : Func) : List String := f.blocks.flatMap fun b => b.instrs.flatMap Instr.syms

def Global.syms (g : Global) : List String := g.init.toList.flatMap Init.syms

namespace Module

variable {τ : Type} (m : Module τ)

/-- The references of instructions and initializers. -/
def refs : List String := m.funcs.flatMap Func.syms ++ m.globals.flatMap Global.syms

def aliasNames : List String := m.aliases.map Prod.fst

def targets : List String := m.aliases.map Prod.snd

/-- The symbols the module defines. -/
def defs : List String := m.own ++ m.aliasNames

/-- All occurrences: definitions, references, alias targets. -/
def sites : List String := m.own ++ m.refs ++ (m.aliasNames ++ m.targets)

/-- A symbol is declared or defined once in a module, and has a name. -/
structure WellFormed : Prop where
  nodup : (m.funcs.map Func.name ++ m.globals.map Global.name ++ m.aliasNames).Nodup
  named : "" ∉ m.funcs.map Func.name ++ m.globals.map Global.name ++ m.aliasNames

end Module

/-! ## The names after a renaming -/

section Rename

variable (ren : Ren)

theorem flatMap_rename {α : Type} (l : List α) (f : α → α) (syms : α → List String)
    (h : ∀ a, syms (f a) = (syms a).map ren.apply) :
    (l.map f).flatMap syms = (l.flatMap syms).map ren.apply := by
  induction l with
  | nil => rfl
  | cons a l ih =>
    rw [List.map_cons, List.flatMap_cons, List.flatMap_cons, List.map_append, h, ih]

theorem Value.syms_rename (v : Value) : (v.rename ren).syms = v.syms.map ren.apply := by
  unfold Value.rename Value.syms
  split <;> rfl

mutual

theorem Init.syms_rename : ∀ i : Init, (i.rename ren).syms = i.syms.map ren.apply
  | .node sym elems => by
    rw [Init.rename, Init.syms, Init.syms, List.map_cons, Init.symsAll_rename elems]

theorem Init.symsAll_rename :
    ∀ is : List Init, Init.symsAll (Init.renameAll ren is) = (Init.symsAll is).map ren.apply
  | [] => by rw [Init.renameAll, Init.symsAll]; rfl
  | i :: is => by
    rw [Init.renameAll, Init.symsAll, Init.symsAll, List.map_append, Init.syms_rename i,
      Init.symsAll_rename is]

end

theorem Instr.syms_rename (ins : Instr) : (ins.rename ren).syms = ins.syms.map ren.apply := by
  have hcallee : (ins.calleeVal.map (Value.rename ren)).toList.flatMap Value.syms =
      (ins.calleeVal.toList.flatMap Value.syms).map ren.apply := by
    rw [Option.toList_map]
    exact flatMap_rename ren _ _ _ (Value.syms_rename ren)
  unfold Instr.rename Instr.syms
  simp [hcallee, flatMap_rename ren _ _ _ (Value.syms_rename ren)]

theorem Func.syms_rename (f : Func) : (f.rename ren).syms = f.syms.map ren.apply :=
  flatMap_rename ren _ (fun b : Block => ⟨b.instrs.map (Instr.rename ren)⟩) _
    fun _ => flatMap_rename ren _ _ _ (Instr.syms_rename ren)

theorem Global.syms_rename (g : Global) : (g.rename ren).syms = g.syms.map ren.apply := by
  show (g.init.map (Init.rename ren)).toList.flatMap Init.syms = _
  rw [Option.toList_map]
  exact flatMap_rename ren _ _ _ (Init.syms_rename ren)

variable {τ : Type} (m : Module τ)

theorem Module.refs_rename : (m.rename ren).refs = m.refs.map ren.apply := by
  rw [Module.refs, Module.refs, List.map_append]
  exact congrArg₂ _ (flatMap_rename ren _ _ _ (Func.syms_rename ren))
    (flatMap_rename ren _ _ _ (Global.syms_rename ren))

theorem Module.own_rename : (m.rename ren).own = m.own.map ren.apply := by
  have hglobals : (m.globals.map (Global.rename ren)).filter (fun g => !g.external) =
      (m.globals.filter fun g => !g.external).map (Global.rename ren) := List.filter_map
  rw [Module.own, Module.own, List.map_append]
  show (m.funcs.map (Func.rename ren)).map Func.name ++
    ((m.globals.map (Global.rename ren)).filter fun g => !g.external).map Global.name = _
  rw [hglobals, List.map_map, List.map_map, List.map_map, List.map_map]
  rfl

/-- Aliases keep their names and their targets. -/
theorem Module.sites_rename : (m.rename ren).sites =
    (m.own ++ m.refs).map ren.apply ++ (m.aliasNames ++ m.targets) := by
  rw [Module.sites, Module.own_rename, Module.refs_rename, List.map_append]
  rfl

end Rename

/-! ## The names after the first pass -/

/-- A mark splits a list at its first occurrence. -/
theorem append_mark_inj {α : Type} {a : α} {d e u v : List α} (hd : a ∉ d) (he : a ∉ e)
    (h : d ++ a :: u = e ++ a :: v) : d = e ∧ u = v := by
  rcases List.append_eq_append_iff.mp h with ⟨w, rfl, hw⟩ | ⟨w, rfl, hw⟩
  · cases w with
    | nil => exact ⟨(List.append_nil d).symm, (List.cons.inj hw).2⟩
    | cons b w =>
      refine absurd (List.mem_append_right d ?_) he
      exact (List.cons.inj hw).1 ▸ List.mem_cons_self
  · cases w with
    | nil => exact ⟨List.append_nil e, (List.cons.inj hw).2.symm⟩
    | cons b w =>
      refine absurd (List.mem_append_right e ?_) hd
      exact (List.cons.inj hw).1 ▸ List.mem_cons_self

theorem m_notMem_digits (n : Nat) : 'm' ∉ (toString n).toList.reverse := by
  intro hm
  have hmem : 'm' ∈ Nat.toDigits 10 n := Nat.toList_repr ▸ List.mem_reverse.mp hm
  exact absurd (Nat.isDigit_of_mem_toDigits (by decide) (by decide) hmem) (by decide)

/-- The number at the end, read backwards, stops at the `m` of the mark. -/
theorem mangle_inj {x y : String} {i j : Nat} : mangle x i = mangle y j ↔ x = y ∧ i = j := by
  refine ⟨fun h => ?_, fun ⟨hx, hi⟩ => by rw [hx, hi]⟩
  have hlist := congrArg (fun s : String => s.toList.reverse) h
  simp only [mangle, String.toList_append, List.reverse_append] at hlist
  obtain ⟨hdigits, hrest⟩ := append_mark_inj (m_notMem_digits i) (m_notMem_digits j)
    (u := '_' :: '_' :: x.toList.reverse) (v := '_' :: '_' :: y.toList.reverse) hlist
  constructor
  · simp only [List.cons.injEq, true_and, List.reverse_inj] at hrest
    exact String.toList_inj.mp hrest
  · have hnum := congrArg (Nat.ofDigitChars 10 · 0) (List.reverse_inj.mp hdigits)
    simp only [toString, Nat.toList_repr, Nat.ofDigitChars_ten_toDigits] at hnum
    exact hnum

theorem mangle_ne (x : String) (i : Nat) : mangle x i ≠ x := by
  intro h
  have hlen := congrArg String.length h
  simp only [mangle, String.length_append] at hlen
  have : "__m".length = 3 := rfl
  omega

section PassOne

variable {τ : Type} (mods : List (Module τ)) (i : Nat) (m : Module τ)

/-- An internal definition that `Merge` renames. -/
def Renamed (x : String) : Prop := x ∈ m.internals ∧ 1 < defCount mods x

instance (x : String) : Decidable (Renamed mods m x) := inferInstanceAs (Decidable (_ ∧ _))

def newName (x : String) : String := if Renamed mods m x then mangle x i else x

theorem lookup_map_pair (l : List String) (g : String → String) (x : String) :
    (l.map fun y => (y, g y)).lookup x = if x ∈ l then some (g x) else none := by
  induction l with
  | nil => rfl
  | cons y l ih =>
    rw [List.map_cons, List.lookup_cons, ih]
    by_cases hxy : x = y
    · subst hxy
      rw [BEq.rfl, if_pos List.mem_cons_self]
    · rw [beq_false_of_ne hxy]
      simp [hxy]

theorem apply_renames (x : String) : (renames mods i m).apply x = newName mods i m x := by
  rw [Ren.apply, renames, lookup_map_pair, newName]
  simp only [List.mem_filter, decide_eq_true_eq, ← Renamed.eq_def]
  split <;> rfl

end PassOne

end DmaCpu.Llir
