-- SUMMARY: The lists of modules that `Merge` links as their linkage says.
import DmaCpu.Llir.Merge

/-!
# Soundness of linking

`Linked` is what `Merge` is for: every name denotes the symbol it denoted in its
module, a shared symbol has one definition, and the linked module holds the
definitions. It fails where the first pass leaves a name alone or makes a new one
that is already taken, and where the second pass does not notice that two kinds of
definitions share a name.
-/
namespace DmaCpu.Llir

open List

variable {τ : Type} {r s : Module τ → Module τ → Prop}

/-- Two modules that have a definition of one name for the others. -/
def Shared (m n : Module τ) : Prop := ∃ x ∈ m.exports, x ∈ n.exports

/-- Some two modules of the list are related. -/
def SomePair (mods : List (Module τ)) (r : Module τ → Module τ → Prop) : Prop :=
  ∃ (i j : Nat) (m n : Module τ), mods[i]? = some m ∧ mods[j]? = some n ∧ i ≠ j ∧ r m n

/-- What `Merge` is for: every name goes on standing for its symbol, no two modules
    define one symbol, and the linked module holds the definitions. -/
structure Linked (mods : List (Module τ)) : Prop where
  names : NamesRight mods
  unique : ∀ out, merge mods = .ok out → ¬SomePair mods Shared
  kept : ∀ out, merge mods = .ok out → out.funcs = (linked mods).flatMap Module.funcs ∧
    (∀ g ∈ (linked mods).flatMap Module.globals, g.external = false → g ∈ out.globals) ∧
    ∀ a ∈ (linked mods).flatMap Module.aliases, a ∈ out.aliases

/-- The functions and globals that other modules see. -/
def Module.exportedFuncs (m : Module τ) : List String :=
  (m.funcs.filter fun f => !f.internal).map Func.name

def Module.exportedGlobals (m : Module τ) : List String :=
  (m.globals.filter fun g => !g.internal && !g.external).map Global.name

/-- Two modules that `Merge` reports: both export a function or a global of one name, or
    their aliases of one name have different targets. -/
def Conflict (m n : Module τ) : Prop :=
  (∃ x ∈ m.exportedFuncs, x ∈ n.exportedFuncs) ∨ (∃ x ∈ m.exportedGlobals, x ∈ n.exportedGlobals) ∨
    ∃ a t t', (a, t) ∈ m.aliases ∧ (a, t') ∈ n.aliases ∧ t ≠ t'

/-- No name is in the way of the first pass, and if two modules define one name for the
    others, some two of them do so in a way that `Merge` reports. -/
structure Clear (mods : List (Module τ)) : Prop where
  names : NamesClear mods
  exports : SomePair mods Shared → SomePair mods Conflict

/-! ## Definitions by kind -/

section Kinds

variable {m : Module τ} (hwf : m.WellFormed) {x : String}

include hwf

theorem nodup_funcs : (m.funcs.map Func.name).Nodup :=
  List.Nodup.of_append_left (List.Nodup.of_append_left hwf.nodup)

theorem func_notMem_internals {f : Func} (hf : f ∈ m.funcs) (hint : f.internal = false) :
    f.name ∉ m.internals := by
  intro hmem
  rcases mem_append.mp hmem with hmem | hmem
  · obtain ⟨f', hf', hname⟩ := mem_map.mp hmem
    obtain ⟨hf', hint'⟩ := mem_filter.mp hf'
    have := inj_on_of_nodup_map (nodup_funcs hwf) hf' hf hname
    rw [this, hint] at hint'
    cases hint'
  · obtain ⟨g, hg, hname⟩ := mem_map.mp hmem
    refine disjoint_of_nodup_append (List.Nodup.of_append_left hwf.nodup)
      (mem_map_of_mem hf) ?_
    rw [← hname]
    exact mem_map_of_mem (mem_of_mem_filter hg)

theorem global_notMem_internals {g : Global} (hg : g ∈ m.globals) (hint : g.internal = false) :
    g.name ∉ m.internals := by
  intro hmem
  have hnd := List.Nodup.of_append_left hwf.nodup
  rcases mem_append.mp hmem with hmem | hmem
  · obtain ⟨f, hf, hname⟩ := mem_map.mp hmem
    refine disjoint_of_nodup_append hnd (a := g.name) ?_ (mem_map_of_mem hg)
    rw [← hname]
    exact mem_map_of_mem (mem_of_mem_filter hf)
  · obtain ⟨g', hg', hname⟩ := mem_map.mp hmem
    obtain ⟨hg', hint'⟩ := mem_filter.mp hg'
    have := inj_on_of_nodup_map (List.Nodup.of_append_right hnd) hg' hg hname
    rw [this, hint] at hint'
    cases hint'

theorem mem_exportedFuncs :
    x ∈ m.exportedFuncs ↔ x ∈ m.funcs.map Func.name ∧ x ∉ m.internals := by
  constructor
  · intro hx
    obtain ⟨f, hf, rfl⟩ := mem_map.mp hx
    obtain ⟨hf, hint⟩ := mem_filter.mp hf
    exact ⟨mem_map_of_mem hf, func_notMem_internals hwf hf (by simpa using hint)⟩
  · rintro ⟨hx, hnot⟩
    obtain ⟨f, hf, rfl⟩ := mem_map.mp hx
    refine mem_map_of_mem (mem_filter.mpr ⟨hf, ?_⟩)
    rw [Bool.not_eq_true']
    by_contra hint
    exact hnot (mem_append_left _
      (mem_map_of_mem (mem_filter.mpr ⟨hf, Bool.of_not_eq_false hint⟩)))

theorem mem_exportedGlobals :
    x ∈ m.exportedGlobals ↔ x ∈ definedNames m.globals ∧ x ∉ m.internals := by
  constructor
  · intro hx
    obtain ⟨g, hg, rfl⟩ := mem_map.mp hx
    obtain ⟨hg, hflags⟩ := mem_filter.mp hg
    simp only [Bool.and_eq_true, Bool.not_eq_true'] at hflags
    exact ⟨mem_definedNames.mpr ⟨g, hg, hflags.2, rfl⟩, global_notMem_internals hwf hg hflags.1⟩
  · rintro ⟨hx, hnot⟩
    obtain ⟨g, hg, hext, rfl⟩ := mem_definedNames.mp hx
    refine mem_map_of_mem (mem_filter.mpr ⟨hg, ?_⟩)
    rw [hext, Bool.not_false, Bool.and_true, Bool.not_eq_true']
    by_contra hint
    refine hnot (mem_append_right _ (mem_map_of_mem (mem_filter.mpr ⟨hg, ?_⟩)))
    rw [hext, Bool.of_not_eq_false hint]
    rfl

end Kinds

/-! ## When `Merge` succeeds -/

section Success

variable {mods : List (Module τ)} {i : Nat} {m : Module τ}

theorem funcs_passOne (hlen : mods.length ≠ 1) : (passOne mods i m).funcs.map Func.name =
    (m.funcs.map Func.name).map (newName mods i m) := by
  rw [passOne, if_neg hlen]
  show (m.funcs.map (Func.rename _)).map Func.name = _
  rw [map_map, map_map]
  exact map_congr_left fun f _ => apply_renames mods i m f.name

theorem globals_passOne (hlen : mods.length ≠ 1) : definedNames (passOne mods i m).globals =
    (definedNames m.globals).map (newName mods i m) := by
  rw [passOne, if_neg hlen]
  show ((m.globals.map (Global.rename _)).filter fun g => !g.external).map Global.name = _
  rw [show (m.globals.map (Global.rename (renames mods i m))).filter (fun g => !g.external) =
    (m.globals.filter fun g => !g.external).map (Global.rename _) from filter_map,
    definedNames, map_map, map_map]
  exact map_congr_left fun g _ => apply_renames mods i m g.name

theorem aliases_passOne : (passOne mods i m).aliases = m.aliases := by
  unfold passOne
  split <;> rfl

theorem getElem?_linked (i : Nat) : (linked mods)[i]? = (mods[i]?).map (passOne mods i) :=
  getElem?_mapIdx

theorem definedNames_flatMap (ms : List (Module τ)) :
    definedNames (ms.flatMap Module.globals) = ms.flatMap fun m => definedNames m.globals := by
  rw [definedNames, filter_flatMap, map_flatMap]
  rfl

/-- Names gathered from all modules are distinct exactly if they are so in each module
    and no two modules have one in common. -/
theorem nodup_linked (names : Module τ → List String) :
    ((linked mods).flatMap names).Nodup ↔
      (∀ i m, mods[i]? = some m → (names (passOne mods i m)).Nodup) ∧
      ∀ i j m n, mods[i]? = some m → mods[j]? = some n → i ≠ j →
        ∀ z ∈ names (passOne mods i m), z ∉ names (passOne mods j n) := by
  rw [nodup_flatMap]
  refine and_congr ⟨fun h i m hm => ?_, fun h m' hm' => ?_⟩ ⟨fun h i j m n hm hn hij => ?_, fun h => ?_⟩
  · exact h _ (mem_of_getElem? ((getElem?_linked i).trans (congrArg _ hm)))
  · obtain ⟨i, hi⟩ := mem_iff_getElem?.mp hm'
    rw [getElem?_linked] at hi
    obtain ⟨m, hm, rfl⟩ := Option.map_eq_some_iff.mp hi
    exact h i m hm
  · have hlt : ∀ {i j m n}, mods[i]? = some m → mods[j]? = some n → i < j →
        Disjoint (names (passOne mods i m)) (names (passOne mods j n)) := by
      intro i j m n hm hn hij
      obtain ⟨hi, hgi⟩ := List.getElem?_eq_some_iff.mp ((getElem?_linked i).trans (congrArg _ hm))
      obtain ⟨hj, hgj⟩ := List.getElem?_eq_some_iff.mp ((getElem?_linked j).trans (congrArg _ hn))
      have := pairwise_iff_getElem.mp h i j hi hj hij
      rwa [hgi, hgj] at this
    rcases Nat.lt_or_gt_of_ne hij with hij | hij
    · exact fun z hz hz' => hlt hm hn hij hz hz'
    · exact fun z hz hz' => hlt hn hm hij hz' hz
  · refine pairwise_iff_getElem.mpr fun i j hi hj hij z hz hz' => ?_
    obtain ⟨m, hm, hgi⟩ := Option.map_eq_some_iff.mp
      ((getElem?_linked i).symm.trans (getElem?_eq_getElem hi))
    obtain ⟨n, hn, hgj⟩ := Option.map_eq_some_iff.mp
      ((getElem?_linked j).symm.trans (getElem?_eq_getElem hj))
    rw [← hgi] at hz
    rw [← hgj] at hz'
    exact h i j m n hm hn (Nat.ne_of_lt hij) z hz hz'

theorem somePair_congr {mods : List (Module τ)}
    (h : ∀ m ∈ mods, ∀ n ∈ mods, (r m n ↔ s m n)) : SomePair mods r ↔ SomePair mods s := by
  refine exists_congr fun i => exists_congr fun j => exists_congr fun m => exists_congr fun n => ?_
  refine and_congr_right fun hm => and_congr_right fun hn => and_congr_right fun _ => ?_
  exact h m (mem_of_getElem? hm) n (mem_of_getElem? hn)

theorem somePair_or {mods : List (Module τ)} :
    SomePair mods (fun m n => r m n ∨ s m n) ↔ SomePair mods r ∨ SomePair mods s := by
  simp [SomePair, and_or_left, exists_or]

variable (hwf : ∀ m ∈ mods, m.WellFormed)

include hwf

/-- Definitions with one name after the first pass have one symbol. -/
theorem symbolOf_of_newName (h : NamesRight mods) {i j : Nat} {m n : Module τ}
    (hm : mods[i]? = some m) (hn : mods[j]? = some n) {x y : String} (hx : x ∈ m.own)
    (hy : y ∈ n.own) (heq : newName mods i m x = newName mods j n y) :
    symbolOf i m x = symbolOf j n y := by
  have hocc : (x, newName mods i m x) ∈ occurrences mods i m :=
    (mem_occurrences (hwf m (mem_of_getElem? hm)) hm).mpr
      (.inl ⟨mem_append_left _ hx, rfl⟩)
  exact (h i m j n hm hn _ hocc _
    (definition_of_mem hwf hn (mem_append_left _ hy))).mp heq

/-- Definitions of one kind, gathered from all modules, are distinct exactly if no two
    modules export one of the same name. -/
theorem nodup_kind (h : NamesRight mods) (names : Module τ → List String)
    (hpass : ∀ i m, names (passOne mods i m) = (names m).map (newName mods i m))
    (hown : ∀ m ∈ mods, (names m).Sublist m.own) :
    ((linked mods).flatMap names).Nodup ↔
      ¬SomePair mods fun m n => ∃ x, (x ∈ names m ∧ x ∉ m.internals) ∧ x ∈ names n ∧ x ∉ n.internals := by
  rw [nodup_linked]
  constructor
  · rintro ⟨_, hdisj⟩ ⟨i, j, m, n, hm, hn, hij, x, ⟨hxm, hnm⟩, hxn, hnn⟩
    have hname : ∀ k (l : Module τ), x ∉ l.internals → newName mods k l x = x :=
      fun k l hl => if_neg fun hren => hl hren.1
    refine hdisj i j m n hm hn hij x ?_ ?_
    · rw [hpass]
      exact mem_map.mpr ⟨x, hxm, hname i m hnm⟩
    · rw [hpass]
      exact mem_map.mpr ⟨x, hxn, hname j n hnn⟩
  · intro hnone
    constructor
    · intro i m hm
      have hsub := hown m (mem_of_getElem? hm)
      have hnd := (hwf m (mem_of_getElem? hm)).nodup_own.sublist hsub
      rw [hpass]
      refine List.Nodup.map_on (fun x hx y hy heq => ?_) hnd
      exact eq_of_symbolOf (symbolOf_of_newName hwf h hm hm (hsub.subset hx) (hsub.subset hy) heq)
    · intro i j m n hm hn hij z hz hz'
      rw [hpass] at hz hz'
      obtain ⟨x, hx, rfl⟩ := mem_map.mp hz
      obtain ⟨y, hy, heq⟩ := mem_map.mp hz'
      have hsym := symbolOf_of_newName hwf h hm hn ((hown m (mem_of_getElem? hm)).subset hx)
        ((hown n (mem_of_getElem? hn)).subset hy) heq.symm
      obtain rfl := eq_of_symbolOf hsym
      -- two modules: the one symbol can only be the shared one
      unfold symbolOf at hsym
      split at hsym <;> split at hsym
      · exact hij (Symbol.own.inj hsym).1
      · cases hsym
      · cases hsym
      · rename_i hnm hnn
        exact hnone ⟨i, j, m, n, hm, hn, hij, x, ⟨hx, hnm⟩, hy, hnn⟩

/-- No alias has two targets exactly if no two modules give it different ones. -/
theorem oneTarget_linked : OneTarget ((linked mods).flatMap Module.aliases) ↔
    ¬SomePair mods fun m n => ∃ a t t', (a, t) ∈ m.aliases ∧ (a, t') ∈ n.aliases ∧ t ≠ t' := by
  have hmem : ∀ p, p ∈ (linked mods).flatMap Module.aliases ↔
      ∃ (i : Nat) (m : Module τ), mods[i]? = some m ∧ p ∈ m.aliases := by
    intro p
    rw [mem_flatMap]
    constructor
    · rintro ⟨m', hm', hp⟩
      obtain ⟨i, hi⟩ := mem_iff_getElem?.mp hm'
      rw [getElem?_linked] at hi
      obtain ⟨m, hm, rfl⟩ := Option.map_eq_some_iff.mp hi
      rw [aliases_passOne] at hp
      exact ⟨i, m, hm, hp⟩
    · rintro ⟨i, m, hm, hp⟩
      refine ⟨passOne mods i m, ?_, by rwa [aliases_passOne]⟩
      exact mem_of_getElem? ((getElem?_linked i).trans (congrArg _ hm))
  constructor
  · rintro hone ⟨i, j, m, n, hm, hn, _, a, t, t', ht, ht', hne⟩
    exact hne (hone a t t' ((hmem _).mpr ⟨i, m, hm, ht⟩) ((hmem _).mpr ⟨j, n, hn, ht'⟩))
  · intro hnone a t t' ht ht'
    obtain ⟨i, m, hm, ht⟩ := (hmem _).mp ht
    obtain ⟨j, n, hn, ht'⟩ := (hmem _).mp ht'
    by_cases hij : i = j
    · subst hij
      rw [hm] at hn
      cases hn
      have hnd : m.aliasNames.Nodup :=
        List.Nodup.of_append_right (hwf m (mem_of_getElem? hm)).nodup
      exact congrArg Prod.snd (inj_on_of_nodup_map hnd ht ht' rfl)
    · by_contra hne
      exact hnone ⟨i, j, m, n, hm, hn, hij, a, t, t', ht, ht', hne⟩

/-- With the names right, `Merge` fails exactly on the conflicts it is to report. -/
theorem merge_ok_iff_conflict (h : NamesRight mods) (hlen : mods.length ≠ 1) :
    (∃ out, merge mods = .ok out) ↔ ¬SomePair mods Conflict := by
  have hfuncs := nodup_kind hwf h (fun m => m.funcs.map Func.name)
    (fun i m => funcs_passOne hlen) fun m _ => sublist_append_left _ _
  have hglobals := nodup_kind hwf h (fun m => definedNames m.globals)
    (fun i m => globals_passOne hlen) fun m _ => sublist_append_right _ _
  rw [merge_ok_iff hlen, map_flatMap, hfuncs, definedNames_flatMap, hglobals,
    oneTarget_linked hwf, ← not_or, ← not_or, ← somePair_or, ← somePair_or]
  refine not_congr (somePair_congr fun m hm n hn => ?_)
  simp [Conflict, mem_exportedFuncs (hwf m hm), mem_exportedFuncs (hwf n hn), mem_exportedGlobals (hwf m hm),
    mem_exportedGlobals (hwf n hn)]

end Success

/-! ## The result -/

/-- What a successful `Merge` holds. -/
theorem merge_kept {mods : List (Module τ)} {out : Module τ} (h : merge mods = .ok out) :
    out.funcs = (linked mods).flatMap Module.funcs ∧
    (∀ g ∈ (linked mods).flatMap Module.globals, g.external = false → g ∈ out.globals) ∧
    ∀ a ∈ (linked mods).flatMap Module.aliases, a ∈ out.aliases := by
  unfold merge at h
  split at h
  · cases h
    have hone : linked [out] = [out] := rfl
    rw [hone]
    simp only [flatMap_singleton, true_and]
    exact ⟨fun g hg _ => hg, fun a ha => ha⟩
  · obtain ⟨hF, hG, hA⟩ := mergeInto_eq_ok h
    have hnilF : (([] : List Func).map Func.name).Nodup := nodup_nil
    have hnilG : (([] : List Global).map Global.name).Nodup := nodup_nil
    refine ⟨?_, fun g hg hext => mergeGlobals_keeps hnilG hG g hext (.inr hg),
      fun a ha => mergeAliases_keeps hA a (.inr ha)⟩
    exact ((mergeFuncs_eq_ok hnilF).mp hF).2

theorem not_shared_single {mods : List (Module τ)} (hlen : mods.length = 1) :
    ¬SomePair mods Shared := by
  rintro ⟨i, j, m, n, hm, hn, hij, _⟩
  have hi := (List.getElem?_eq_some_iff.mp hm).1
  have hj := (List.getElem?_eq_some_iff.mp hn).1
  omega

theorem linked_iff_clear {mods : List (Module τ)} (hwf : ∀ m ∈ mods, m.WellFormed) :
    Linked mods ↔ Clear mods := by
  constructor
  · intro h
    refine ⟨clear_of_right hwf h.names, fun hshared => ?_⟩
    by_cases hlen : mods.length = 1
    · exact absurd hshared (not_shared_single hlen)
    · by_contra hnone
      obtain ⟨out, hout⟩ := (merge_ok_iff_conflict hwf h.names hlen).mpr hnone
      exact h.unique out hout hshared
  · intro h
    have hnames := right_of_clear hwf h.names
    refine ⟨hnames, fun out hout hshared => ?_, fun out hout => merge_kept hout⟩
    by_cases hlen : mods.length = 1
    · exact not_shared_single hlen hshared
    · exact (merge_ok_iff_conflict hwf hnames hlen).mp ⟨out, hout⟩ (h.exports hshared)

/-! ## Two modules -/

/-- A module with one function, which calls another one. -/
def oneFunc (name callee : String) (internal : Bool) : Module Unit where
  globals := []
  funcs := [⟨name, 0, internal, [⟨[⟨[], none, [], callee⟩]⟩]⟩]
  declares := []
  types := []
  aliases := []

theorem wellFormed_oneFunc {name callee : String} {internal : Bool} (h : name ≠ "") :
    (oneFunc name callee internal).WellFormed where
  nodup := nodup_singleton name
  named hmem := h (mem_singleton.mp hmem).symm

/-- Each module calls its own internal `f`: both are renamed. -/
def ownHelpers : List (Module Unit) := [oneFunc "f" "f" true, oneFunc "f" "f" true]

theorem clear_ownHelpers : Clear ownHelpers := by
  have hget : ∀ {i : Nat} {m : Module Unit}, ownHelpers[i]? = some m → m = oneFunc "f" "f" true := by
    intro i m hm
    rcases mem_cons.mp (mem_of_getElem? hm) with h | h
    · exact h
    · exact mem_singleton.mp h
  refine ⟨⟨?_, ?_, ?_⟩, ?_⟩
  · intro i m j n hm _ _ x hx hcount
    rw [hget hm] at hx
    rw [mem_singleton.mp hx] at hcount
    exact absurd hcount (by decide)
  · intro i m hm x hx
    rw [hget hm] at hx
    cases hx
  · intro i m j n hm hn y hy hmem
    rw [hget hm] at hmem
    rw [hget hn] at hy
    obtain rfl : y = "f" := mem_singleton.mp hy.1
    have hname : mangle "f" j = "f" := by
      rcases mem_cons.mp hmem with h | h
      · exact h
      · exact mem_singleton.mp h
    exact absurd hname (mangle_ne "f" j)
  · rintro ⟨i, j, m, n, hm, _, _, x, hx, _⟩
    rw [hget hm] at hx
    cases hx

theorem linked_ownHelpers : (∀ m ∈ ownHelpers, m.WellFormed) ∧ Linked ownHelpers := by
  have hwf : ∀ m ∈ ownHelpers, m.WellFormed := by
    intro m hm
    rcases mem_cons.mp hm with rfl | hm
    · exact wellFormed_oneFunc (by decide)
    · cases mem_singleton.mp hm
      exact wellFormed_oneFunc (by decide)
  exact ⟨hwf, (linked_iff_clear hwf).mpr clear_ownHelpers⟩

/-- The second module calls an `f` that only the first one has, internally. -/
def borrowedHelper : List (Module Unit) := [oneFunc "f" "" true, oneFunc "main" "f" false]

/-- `Merge` succeeds, and the call reaches the internal function. -/
theorem merge_borrowedHelper : (∀ m ∈ borrowedHelper, m.WellFormed) ∧
    (∃ out, merge borrowedHelper = .ok out) ∧ ¬Linked borrowedHelper := by
  refine ⟨?_, ⟨_, rfl⟩, fun h => ?_⟩
  · intro m hm
    rcases mem_cons.mp hm with rfl | hm
    · exact wellFormed_oneFunc (by decide)
    · cases mem_singleton.mp hm
      exact wellFormed_oneFunc (by decide)
  have hsym := (h.names 1 _ 0 _ rfl rfl ("f", "f") (by decide) ("f", "f") (by decide)).mp rfl
  exact absurd hsym (by decide)

end DmaCpu.Llir
