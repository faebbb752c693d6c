-- SUMMARY: What linking is to preserve, and the lists of modules on which the first pass of `Merge` preserves it.
import Mathlib.Algebra.Order.BigOperators.Group.List
import Mathlib.Algebra.Order.Group.Nat
import DmaCpu.Llir.Occurrences

/-!
# Linkage

A name in a module stands for a symbol: the module's own one if it defines the name
with internal linkage, else the one symbol of that name that the modules share.
Linking is by name, so it is right when two names are the same afterwards exactly
where they stood for the same symbol before.
-/
namespace DmaCpu.Llir

variable {τ : Type}

inductive Symbol where
  | own (i : Nat) (x : String)
  | shared (x : String)
deriving DecidableEq, Repr

/-- What a name in module `i` stands for. -/
def symbolOf (i : Nat) (m : Module τ) (x : String) : Symbol :=
  if x ∈ m.internals then .own i x else .shared x

/-- The definitions that other modules see; an alias is one. -/
def Module.exports (m : Module τ) : List String := m.defs.filter fun x => x ∉ m.internals

/-- The occurrences in module `i`, each with its name after the first pass. -/
def occurrences (mods : List (Module τ)) (i : Nat) (m : Module τ) : List (String × String) :=
  m.sites.zip (passOne mods i m).sites

def definitions (mods : List (Module τ)) (i : Nat) (m : Module τ) : List (String × String) :=
  m.defs.zip (passOne mods i m).defs

/-- An occurrence and a definition have one name afterwards exactly if they are of one
    symbol. -/
def NamesRight (mods : List (Module τ)) : Prop :=
  ∀ i m j n, mods[i]? = some m → mods[j]? = some n →
    ∀ o ∈ occurrences mods i m, ∀ d ∈ definitions mods j n,
      o.2 = d.2 ↔ symbolOf i m o.1 = symbolOf j n d.1

/-! ## Occurrences after the first pass -/

variable {x : String}

namespace Module.WellFormed

variable {m : Module τ} (hwf : m.WellFormed)

theorem internals_subset (m : Module τ) : m.internals ⊆ m.own := by
  intro x hx
  rcases List.mem_append.mp hx with hx | hx
  · obtain ⟨f, hf, rfl⟩ := List.mem_map.mp hx
    exact List.mem_append_left _ (List.mem_map_of_mem (List.mem_of_mem_filter hf))
  · obtain ⟨g, hg, rfl⟩ := List.mem_map.mp hx
    obtain ⟨hmem, hflags⟩ := List.mem_filter.mp hg
    refine List.mem_append_right _ (List.mem_map_of_mem (List.mem_filter.mpr ⟨hmem, ?_⟩))
    exact (Bool.and_eq_true _ _ ▸ hflags).2

theorem own_sublist (m : Module τ) :
    m.own.Sublist (m.funcs.map Func.name ++ m.globals.map Global.name) :=
  List.Sublist.append_left (List.filter_sublist.map _) _

include hwf

theorem nodup_own : m.own.Nodup :=
  (List.Nodup.of_append_left hwf.nodup).sublist (own_sublist m)

theorem alias_notMem_own (hx : x ∈ m.aliasNames) : x ∉ m.own := by
  intro hown
  exact List.disjoint_of_nodup_append hwf.nodup ((own_sublist m).subset hown) hx

end Module.WellFormed

section Names

variable {mods : List (Module τ)} {i : Nat} {m : Module τ}

/-- A single well-formed module has nothing to rename. -/
theorem newName_single (hwf : m.WellFormed) (x : String) : newName [m] i m x = x := by
  refine if_neg fun hren => ?_
  have hcount : m.own.count x ≤ 1 := List.nodup_iff_count_le_one.mp hwf.nodup_own x
  have hlt := hren.2
  rw [defCount, List.map_singleton, List.sum_singleton] at hlt
  omega

theorem map_newName_single {l : List String} (hwf : m.WellFormed) :
    l.map (newName [m] i m) = l := by
  rw [List.map_congr_left fun x _ => newName_single hwf x, List.map_id']

theorem sites_passOne (hwf : m.WellFormed) (hm : mods[i]? = some m) : (passOne mods i m).sites =
    (m.own ++ m.refs).map (newName mods i m) ++ (m.aliasNames ++ m.targets) := by
  unfold passOne
  split
  · rename_i hlen
    obtain ⟨m', rfl⟩ := List.length_eq_one_iff.mp hlen
    obtain ⟨rfl, rfl⟩ : i = 0 ∧ m' = m := by
      cases i with
      | zero => exact ⟨rfl, Option.some.inj hm⟩
      | succ i => cases hm
    rw [map_newName_single hwf]
    rfl
  · rw [Module.sites_rename, List.map_congr_left fun x _ => apply_renames mods i m x]

theorem defs_passOne (hwf : m.WellFormed) (hm : mods[i]? = some m) :
    (passOne mods i m).defs = m.defs.map (newName mods i m) := by
  have halias : m.aliasNames.map (newName mods i m) = m.aliasNames := by
    conv_rhs => rw [← List.map_id m.aliasNames]
    apply List.map_congr_left
    intro x hx
    exact if_neg fun hren => hwf.alias_notMem_own hx
      (Module.WellFormed.internals_subset m hren.1)
  show _ = (m.own ++ m.aliasNames).map _
  rw [List.map_append, halias]
  unfold passOne
  split
  · rename_i hlen
    obtain ⟨m', rfl⟩ := List.length_eq_one_iff.mp hlen
    obtain ⟨rfl, rfl⟩ : i = 0 ∧ m' = m := by
      cases i with
      | zero => exact ⟨rfl, Option.some.inj hm⟩
      | succ i => cases hm
    rw [map_newName_single hwf]
    rfl
  · rw [Module.defs, Module.own_rename, List.map_congr_left fun x _ => apply_renames mods i m x]
    rfl

theorem mem_zip_map {α : Type} {l : List α} {f : α → α} {p : α × α} :
    p ∈ l.zip (l.map f) ↔ p.1 ∈ l ∧ p.2 = f p.1 := by
  rw [show l.zip (l.map f) = l.map fun a => (a, f a) by
    conv_lhs => rw [← List.map_id l, List.map_map]
    exact List.zip_map' ..]
  constructor
  · intro hp
    obtain ⟨a, ha, rfl⟩ := List.mem_map.mp hp
    exact ⟨ha, rfl⟩
  · rintro ⟨ha, h2⟩
    exact List.mem_map.mpr ⟨p.1, ha, Prod.ext rfl h2.symm⟩

/-- Names in the code take their new name, an alias keeps its name and its target. -/
theorem mem_occurrences (hwf : m.WellFormed) (hm : mods[i]? = some m) {o : String × String} :
    o ∈ occurrences mods i m ↔
      o.1 ∈ m.own ++ m.refs ∧ o.2 = newName mods i m o.1 ∨
      o.1 ∈ m.aliasNames ++ m.targets ∧ o.2 = o.1 := by
  rw [occurrences, sites_passOne hwf hm, Module.sites,
    List.zip_append (List.length_map _).symm, List.mem_append, mem_zip_map]
  refine or_congr_right ?_
  have := mem_zip_map (l := m.aliasNames ++ m.targets) (f := id) (p := o)
  rwa [List.map_id] at this

theorem mem_definitions (hwf : m.WellFormed) (hm : mods[i]? = some m) {d : String × String} :
    d ∈ definitions mods i m ↔ d.1 ∈ m.defs ∧ d.2 = newName mods i m d.1 := by
  rw [definitions, defs_passOne hwf hm, mem_zip_map]

end Names

/-! ## The condition -/

/-- No name stands in the way of the first pass. -/
structure NamesClear (mods : List (Module τ)) : Prop where
  /-- An internal definition that is the only one of its name is named in no other module. -/
  alone : ∀ (i : Nat) (m : Module τ) (j : Nat) (n : Module τ), mods[i]? = some m →
    mods[j]? = some n → i ≠ j → ∀ x ∈ m.internals, defCount mods x ≤ 1 → x ∉ n.sites
  /-- No alias has a target that is renamed. -/
  targets : ∀ (i : Nat) (m : Module τ), mods[i]? = some m → ∀ x ∈ m.targets, ¬Renamed mods m x
  /-- A name spelled like a renamed one is itself renamed. -/
  fresh : ∀ (i : Nat) (m : Module τ) (j : Nat) (n : Module τ), mods[i]? = some m →
    mods[j]? = some n → ∀ y, Renamed mods n y → mangle y j ∈ m.sites → Renamed mods m (mangle y j)

variable {n : Module τ}

section Condition

variable {mods : List (Module τ)} (hwf : ∀ m ∈ mods, m.WellFormed)

variable {m : Module τ}

theorem mem_sites : x ∈ m.sites ↔ x ∈ m.own ++ m.refs ∨ x ∈ m.aliasNames ++ m.targets := List.mem_append

theorem sites_of_defs (hx : x ∈ m.defs) : x ∈ m.sites := by
  rw [mem_sites]
  rcases List.mem_append.mp hx with h | h
  · exact .inl (List.mem_append_left _ h)
  · exact .inr (List.mem_append_left _ h)

theorem defs_of_internals (hx : x ∈ m.internals) : x ∈ m.defs :=
  List.mem_append_left _ (Module.WellFormed.internals_subset m hx)

variable {i : Nat}

/-- A kept name in one module and a kept definition in another are of one symbol when
    they are spelled alike. -/
theorem symbolOf_of_kept (h : NamesClear mods) {j : Nat} (hm : mods[i]? = some m)
    (hn : mods[j]? = some n) (hx : x ∈ m.sites) (hy : x ∈ n.sites) (hkm : ¬Renamed mods m x)
    (hkn : ¬Renamed mods n x) : symbolOf i m x = symbolOf j n x := by
  by_cases hij : i = j
  · subst hij
    rw [hm] at hn
    cases hn
    rfl
  · have hxm : x ∉ m.internals := fun hint =>
      h.alone i m j n hm hn hij x hint (Nat.not_lt.mp fun hlt => hkm ⟨hint, hlt⟩) hy
    have hxn : x ∉ n.internals := fun hint =>
      h.alone j n i m hn hm (Ne.symm hij) x hint (Nat.not_lt.mp fun hlt => hkn ⟨hint, hlt⟩) hx
    rw [symbolOf, symbolOf, if_neg hxm, if_neg hxn]

/-- One symbol is renamed everywhere or nowhere. -/
theorem renamed_of_symbolOf {j : Nat} (hm : mods[i]? = some m) (hn : mods[j]? = some n) {y : String}
    (hsym : symbolOf i m x = symbolOf j n y)
    (hren : Renamed mods m x) : i = j ∧ x = y ∧ Renamed mods n y := by
  rw [symbolOf, if_pos hren.1, symbolOf] at hsym
  split at hsym
  · obtain ⟨rfl, rfl⟩ := Symbol.own.inj hsym
    rw [hm] at hn
    cases hn
    exact ⟨rfl, rfl, hren⟩
  · cases hsym

theorem eq_of_symbolOf {j : Nat} {y : String} (hsym : symbolOf i m x = symbolOf j n y) : x = y := by
  unfold symbolOf at hsym
  split at hsym <;> split at hsym <;> cases hsym <;> rfl

include hwf

/-- A name that is not renamed is kept wherever it occurs. -/
theorem occurrence_of_kept (hm : mods[i]? = some m) (hx : x ∈ m.sites)
    (hkeep : ¬Renamed mods m x) : (x, x) ∈ occurrences mods i m := by
  rw [mem_occurrences (hwf m (List.mem_of_getElem? hm)) hm]
  exact (mem_sites.mp hx).imp (fun h => ⟨h, (if_neg hkeep).symm⟩) fun h => ⟨h, rfl⟩

theorem definition_of_mem (hm : mods[i]? = some m)
    (hx : x ∈ m.defs) : (x, newName mods i m x) ∈ definitions mods i m :=
  (mem_definitions (hwf m (List.mem_of_getElem? hm)) hm).mpr ⟨hx, rfl⟩

theorem clear_of_right (h : NamesRight mods) : NamesClear mods where
  alone i m j n hm hn hij x hx hcount hsite := by
    have hkeep : ∀ k : Module τ, ¬Renamed mods k x := fun k hk => Nat.not_lt.mpr hcount hk.2
    have hdef := definition_of_mem hwf hm (defs_of_internals hx)
    rw [newName, if_neg (hkeep m)] at hdef
    have hsym := (h j n i m hn hm _ (occurrence_of_kept hwf hn hsite (hkeep n)) _ hdef).mp rfl
    simp only [symbolOf, hx, if_true] at hsym
    split at hsym
    · exact hij (Symbol.own.inj hsym).1.symm
    · cases hsym
  targets i m hm x hx hren := by
    have hdef := definition_of_mem hwf hm (defs_of_internals hren.1)
    rw [newName, if_pos hren] at hdef
    have hocc : (x, x) ∈ occurrences mods i m :=
      (mem_occurrences (hwf m (List.mem_of_getElem? hm)) hm).mpr
        (.inr ⟨List.mem_append_right _ hx, rfl⟩)
    exact mangle_ne x i ((h i m i m hm hm _ hocc _ hdef).mpr rfl).symm
  fresh i m j n hm hn y hy hsite := by
    by_contra hkeep
    have hdef := definition_of_mem hwf hn (defs_of_internals hy.1)
    rw [newName, if_pos hy] at hdef
    have hsym := (h i m j n hm hn _ (occurrence_of_kept hwf hm hsite hkeep) _ hdef).mp rfl
    simp only [symbolOf, hy.1, if_true] at hsym
    split at hsym
    · exact mangle_ne y j (Symbol.own.inj hsym).2
    · cases hsym

/-- An occurrence takes the new name: no alias target is in the way. -/
theorem occurrence_name (h : NamesClear mods) (hm : mods[i]? = some m) {o : String × String}
    (ho : o ∈ occurrences mods i m) : o.1 ∈ m.sites ∧ o.2 = newName mods i m o.1 := by
  have hwfm := hwf m (List.mem_of_getElem? hm)
  rcases (mem_occurrences hwfm hm).mp ho with ⟨hmem, hname⟩ | ⟨hmem, hname⟩
  · exact ⟨mem_sites.mpr (.inl hmem), hname⟩
  · refine ⟨mem_sites.mpr (.inr hmem), ?_⟩
    rw [hname, newName, if_neg]
    rcases List.mem_append.mp hmem with halias | htarget
    · exact fun hren => hwfm.alias_notMem_own halias
        (Module.WellFormed.internals_subset m hren.1)
    · exact h.targets i m hm _ htarget

theorem right_of_clear (h : NamesClear mods) : NamesRight mods := by
  intro i m j n hm hn o ho d hd
  obtain ⟨hox, hon⟩ := occurrence_name hwf h hm ho
  obtain ⟨hdy, hdn⟩ := (mem_definitions (hwf n (List.mem_of_getElem? hn)) hn).mp hd
  have hds := sites_of_defs hdy
  rw [hon, hdn, newName, newName]
  by_cases hrx : Renamed mods m o.1 <;> by_cases hry : Renamed mods n d.1
  · rw [if_pos hrx, if_pos hry, mangle_inj, symbolOf, if_pos hrx.1, symbolOf, if_pos hry.1,
      Symbol.own.injEq]
    exact and_comm
  · rw [if_pos hrx, if_neg hry]
    refine iff_of_false (fun heq => hry ?_) fun hsym => hry (renamed_of_symbolOf hm hn hsym hrx).2.2
    rw [← heq] at hds ⊢
    exact h.fresh j n i m hn hm _ hrx hds
  · rw [if_neg hrx, if_pos hry]
    refine iff_of_false (fun heq => hrx ?_)
      fun hsym => hrx (renamed_of_symbolOf hn hm hsym.symm hry).2.2
    rw [heq] at hox ⊢
    exact h.fresh i m j n hm hn _ hry hox
  · rw [if_neg hrx, if_neg hry]
    refine ⟨fun heq => ?_, eq_of_symbolOf⟩
    rw [← heq] at hds hry ⊢
    exact symbolOf_of_kept h hm hn hox hds hrx hry

end Condition

end DmaCpu.Llir
