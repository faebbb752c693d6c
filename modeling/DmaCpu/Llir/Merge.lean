-- SUMMARY: The second pass of `Merge`: when it succeeds, and what the linked module then holds.
import DmaCpu.Lib.Fallible
import DmaCpu.Llir.Link

/-!
# The second pass

The linked module gathers functions, globals and aliases. A function or a global
defined twice and an alias with two targets are refused; a declared global gives way
to its definition.
-/
namespace DmaCpu.Llir

open Fallible

/-! ## Functions -/

theorem mergeFuncs_eq_ok {out fs r : List Func} (hout : (out.map Func.name).Nodup) :
    mergeFuncs out fs = .ok r ↔ ((out ++ fs).map Func.name).Nodup ∧ r = out ++ fs := by
  induction fs generalizing out with
  | nil =>
    rw [List.append_nil]
    exact ⟨fun h => ⟨hout, (Except.ok.inj h).symm⟩, fun h => congrArg Except.ok h.2.symm⟩
  | cons f fs ih =>
    rw [mergeFuncs]
    cases hfind : out.find? fun prev => prev.name = f.name with
    | some prev =>
      have hname : prev.name = f.name := by
        have := List.find?_some hfind
        exact of_decide_eq_true this
      have hmem := List.mem_of_find?_eq_some hfind
      refine iff_of_false (nomatch ·) fun h => ?_
      rw [List.map_append] at h
      exact List.disjoint_of_nodup_append h.1 (List.mem_map_of_mem hmem) (hname ▸ List.mem_cons_self)
    | none =>
      have hnew : f.name ∉ out.map Func.name := by
        intro hmem
        obtain ⟨prev, hprev, hname⟩ := List.mem_map.mp hmem
        exact absurd (decide_eq_true hname) (List.find?_eq_none.mp hfind prev hprev)
      have hout' : ((out ++ [f]).map Func.name).Nodup := by
        rw [List.map_append]
        exact List.Nodup.append hout (List.nodup_singleton _)
          (List.disjoint_singleton.mpr hnew)
      rw [ih hout', List.append_assoc, List.singleton_append]

/-! ## Globals -/

/-- The names of the globals that are defined. -/
def definedNames (gs : List Global) : List String := (gs.filter fun g => !g.external).map Global.name

theorem mem_definedNames {gs : List Global} {x : String} :
    x ∈ definedNames gs ↔ ∃ g ∈ gs, g.external = false ∧ g.name = x := by
  rw [definedNames, List.mem_map]
  simp [and_assoc]

/-- What one global does to those gathered so far: it is refused as a second definition,
    or the definitions are then the old ones and it. -/
theorem mergeGlobals_cons {out : List Global} (hout : (out.map Global.name).Nodup) (g : Global)
    (gs : List Global) :
    (g.external = false ∧ g.name ∈ definedNames out ∧ ∃ e, mergeGlobals out (g :: gs) = .error e) ∨
    (¬(g.external = false ∧ g.name ∈ definedNames out) ∧ ∃ out', (out'.map Global.name).Nodup ∧
      (∀ d : Global, d.external = false → (d ∈ out' ↔ d ∈ out ∨ d = g)) ∧
      mergeGlobals out (g :: gs) = mergeGlobals out' gs) := by
  rw [mergeGlobals]
  cases hfind : out.findIdx? fun prev => prev.name = g.name with
  | none =>
    have hnew : g.name ∉ out.map Global.name := by
      intro hmem
      obtain ⟨prev, hprev, hname⟩ := List.mem_map.mp hmem
      have := List.findIdx?_eq_none_iff.mp hfind prev hprev
      exact absurd hname (of_decide_eq_false this)
    refine .inr ⟨fun h => hnew ?_, out ++ [g], ?_, ?_, rfl⟩
    · obtain ⟨d, hd, _, hname⟩ := mem_definedNames.mp h.2
      exact hname ▸ List.mem_map_of_mem hd
    · rw [List.map_append]
      exact List.Nodup.append hout (List.nodup_singleton _) (List.disjoint_singleton.mpr hnew)
    · intro d _
      rw [List.mem_append, List.mem_singleton]
  | some idx =>
    obtain ⟨hlt, hname, _⟩ := List.findIdx?_eq_some_iff_getElem.mp hfind
    have hname : out[idx].name = g.name := of_decide_eq_true hname
    have hmem : out[idx] ∈ out := List.getElem_mem hlt
    -- the names are distinct: a global of this name is the one found
    have honly : ∀ d ∈ out, d.name = g.name → d = out[idx] := by
      intro d hd hdn
      exact List.inj_on_of_nodup_map hout hd hmem (hdn.trans hname.symm)
    simp only [List.getElem?_eq_getElem hlt]
    cases hg : g.external with
    | true =>
      refine .inr ⟨fun h => Bool.noConfusion h.1, out, hout, fun d hd => ?_, ?_⟩
      · refine ⟨.inl, fun h => h.resolve_right fun heq => ?_⟩
        rw [heq, hg] at hd
        cases hd
      · simp
    | false =>
      cases hp : out[idx].external with
      | true =>
        refine .inr ⟨fun h => ?_, out.set idx g, ?_, fun d hd => ?_, by simp⟩
        · obtain ⟨d, hd, hde, hdn⟩ := mem_definedNames.mp h.2
          rw [honly d hd hdn, hp] at hde
          cases hde
        · have hself : (out.map Global.name).set idx g.name = out.map Global.name := by
            rw [← hname, ← List.getElem_map Global.name (h := by rwa [List.length_map])]
            exact List.set_getElem_self _
          rwa [List.map_set, hself]
        · refine ⟨List.mem_or_eq_of_mem_set, ?_⟩
          rintro (hmem' | rfl)
          · obtain ⟨k, hk⟩ := List.mem_iff_getElem?.mp hmem'
            have hne : idx ≠ k := by
              rintro rfl
              rw [List.getElem?_eq_getElem hlt] at hk
              rw [← Option.some.inj hk, hp] at hd
              cases hd
            exact List.mem_of_getElem? ((List.getElem?_set_ne hne).trans hk)
          · exact List.mem_set hlt _
      | false =>
        exact .inl ⟨rfl, mem_definedNames.mpr ⟨_, hmem, hp, hname⟩, .globalTwice g.name, by simp⟩

theorem definedNames_cons (g : Global) (gs : List Global) :
    definedNames (g :: gs) = (if g.external = false then [g.name] else []) ++ definedNames gs := by
  unfold definedNames
  cases hg : g.external <;> simp [hg]

/-- The globals are gathered exactly if none is defined twice. -/
theorem mergeGlobals_ok_iff {out gs : List Global} (hout : (out.map Global.name).Nodup) :
    (∃ r, mergeGlobals out gs = .ok r) ↔
      (definedNames gs).Nodup ∧ ∀ x ∈ definedNames gs, x ∉ definedNames out := by
  induction gs generalizing out with
  | nil => exact ⟨fun _ => ⟨List.nodup_nil, fun _ h => by cases h⟩, fun _ => ⟨out, rfl⟩⟩
  | cons g gs ih =>
    rw [definedNames_cons]
    rcases mergeGlobals_cons hout g gs with
      ⟨hg, hmem, e, he⟩ | ⟨hnew, out', hout', hdef, hstep⟩
    · rw [he, if_pos hg]
      refine iff_of_false (fun ⟨r, hr⟩ => nomatch hr) fun h => ?_
      exact h.2 _ List.mem_cons_self hmem
    · rw [hstep, ih hout']
      have hnames : ∀ x, x ∈ definedNames out' ↔
          x ∈ definedNames out ∨ g.external = false ∧ x = g.name := by
        intro x
        simp only [mem_definedNames]
        constructor
        · rintro ⟨d, hd, hde, rfl⟩
          rcases (hdef d hde).mp hd with h | rfl
          · exact .inl ⟨d, h, hde, rfl⟩
          · exact .inr ⟨hde, rfl⟩
        · rintro (⟨d, hd, hde, rfl⟩ | ⟨hg, rfl⟩)
          · exact ⟨d, (hdef d hde).mpr (.inl hd), hde, rfl⟩
          · exact ⟨g, (hdef g hg).mpr (.inr rfl), hg, rfl⟩
      simp only [hnames, not_or, not_and]
      cases hg : g.external with
      | true => simp
      | false =>
        have hnew' : g.name ∉ definedNames out := fun h => hnew ⟨hg, h⟩
        simp only [if_true, List.singleton_append, List.nodup_cons, List.forall_mem_cons, forall_const]
        constructor
        · rintro ⟨hnd, hall⟩
          exact ⟨⟨fun h => (hall _ h).2 rfl, hnd⟩, hnew', fun x hx => (hall x hx).1⟩
        · rintro ⟨⟨hgs, hnd⟩, _, hall⟩
          exact ⟨hnd, fun x hx => ⟨hall x hx, fun heq => hgs (heq ▸ hx)⟩⟩

/-- Every definition is kept. -/
theorem mergeGlobals_keeps {out gs r : List Global} (hout : (out.map Global.name).Nodup)
    (h : mergeGlobals out gs = .ok r) :
    ∀ d : Global, d.external = false → d ∈ out ∨ d ∈ gs → d ∈ r := by
  induction gs generalizing out with
  | nil =>
    cases h
    exact fun d _ hd => hd.resolve_right fun h => by cases h
  | cons g gs ih =>
    rcases mergeGlobals_cons hout g gs with ⟨_, _, e, he⟩ | ⟨_, out', hout', hdef, hstep⟩
    · rw [he] at h
      cases h
    · rw [hstep] at h
      intro d hd hmem
      refine ih hout' h d hd ?_
      rw [hdef d hd]
      rcases hmem with hmem | hmem
      · exact .inl (.inl hmem)
      · rcases List.mem_cons.mp hmem with rfl | hmem
        · exact .inl (.inr rfl)
        · exact .inr hmem

/-! ## Aliases -/

/-- No name has two targets. -/
def OneTarget (as : List (String × String)) : Prop := ∀ a t t', (a, t) ∈ as → (a, t') ∈ as → t = t'

theorem oneTarget_congr {as bs : List (String × String)} (h : ∀ p, p ∈ as ↔ p ∈ bs) :
    OneTarget as ↔ OneTarget bs := by
  unfold OneTarget
  simp [h]

theorem mem_of_lookup {out : List (String × String)} {a t : String} (h : out.lookup a = some t) :
    (a, t) ∈ out := by
  obtain ⟨l, r, rfl, _⟩ := List.lookup_eq_some_iff.mp h
  exact List.mem_append_right _ List.mem_cons_self

theorem notMem_of_lookup {out : List (String × String)} {a : String} (h : out.lookup a = none)
    (t : String) : (a, t) ∉ out :=
  fun hmem => absurd (List.lookup_eq_none_iff.mp h _ hmem) (by simp)

theorem mergeAliases_ok_iff {out as : List (String × String)} (hout : OneTarget out) :
    (∃ r, mergeAliases out as = .ok r) ↔ OneTarget (out ++ as) := by
  induction as generalizing out with
  | nil =>
    rw [List.append_nil]
    exact ⟨fun _ => hout, fun _ => ⟨out, rfl⟩⟩
  | cons p as ih =>
    obtain ⟨a, t⟩ := p
    rw [mergeAliases]
    cases hlook : out.lookup a with
    | some prev =>
      have hmem := mem_of_lookup hlook
      by_cases hne : prev = t
      · subst hne
        simp only [ne_eq, not_true, if_false]
        rw [ih hout]
        apply oneTarget_congr
        intro p
        simp only [List.mem_append, List.mem_cons]
        exact ⟨fun h => h.imp_right .inr, fun h => h.elim .inl fun h => h.elim (· ▸ .inl hmem) .inr⟩
      · simp only [ne_eq, hne, not_false_eq_true, if_true]
        refine iff_of_false (fun ⟨r, hr⟩ => nomatch hr) fun h => hne ?_
        exact h a prev t (List.mem_append_left _ hmem) (List.mem_append_right _ List.mem_cons_self)
    | none =>
      have hout' : OneTarget (out ++ [(a, t)]) := by
        intro b u u' hu hu'
        rcases List.mem_append.mp hu with hu | hu <;> rcases List.mem_append.mp hu' with hu' | hu'
        · exact hout b u u' hu hu'
        · cases List.mem_singleton.mp hu'
          exact absurd hu (notMem_of_lookup hlook u)
        · cases List.mem_singleton.mp hu
          exact absurd hu' (notMem_of_lookup hlook u')
        · cases List.mem_singleton.mp hu
          cases List.mem_singleton.mp hu'
          rfl
      rw [ih hout', List.append_assoc, List.singleton_append]

/-- Every alias is kept. -/
theorem mergeAliases_keeps {out as r : List (String × String)} (h : mergeAliases out as = .ok r) :
    ∀ p, p ∈ out ∨ p ∈ as → p ∈ r := by
  induction as generalizing out with
  | nil =>
    cases h
    exact fun p hp => hp.resolve_right fun h => by cases h
  | cons q as ih =>
    obtain ⟨a, t⟩ := q
    rw [mergeAliases] at h
    intro p hp
    cases hlook : out.lookup a with
    | some prev =>
      simp only [hlook] at h
      split at h
      · cases h
      · rename_i heq
        refine ih h p ?_
        rcases hp with hp | hp
        · exact .inl hp
        · refine (List.mem_cons.mp hp).imp (fun hpa => ?_) id
          rw [hpa, ← not_not.mp heq]
          exact mem_of_lookup hlook
    | none =>
      simp only [hlook] at h
      refine ih h p ?_
      rw [List.mem_append, List.mem_singleton]
      rcases hp with hp | hp
      · exact .inl (.inl hp)
      · exact (List.mem_cons.mp hp).imp .inr id

/-! ## The modules together -/

theorem mergeFuncs_append (out fs gs : List Func) :
    mergeFuncs out (fs ++ gs) = (mergeFuncs out fs).bind fun out => mergeFuncs out gs := by
  induction fs generalizing out with
  | nil => rfl
  | cons f fs ih =>
    rw [List.cons_append, mergeFuncs, mergeFuncs]
    split
    · rfl
    · exact ih _

theorem mergeGlobals_append (out gs hs : List Global) :
    mergeGlobals out (gs ++ hs) = (mergeGlobals out gs).bind fun out => mergeGlobals out hs := by
  induction gs generalizing out with
  | nil => rfl
  | cons g gs ih =>
    rw [List.cons_append, mergeGlobals, mergeGlobals]
    split
    · exact ih _
    · split
      · exact ih _
      · split
        · exact ih _
        · split
          · rfl
          · exact ih _

theorem mergeAliases_append (out as bs : List (String × String)) :
    mergeAliases out (as ++ bs) = (mergeAliases out as).bind fun out => mergeAliases out bs := by
  induction as generalizing out with
  | nil => rfl
  | cons p as ih =>
    rw [List.cons_append, mergeAliases, mergeAliases]
    split
    · split
      · rfl
      · exact ih _
    · exact ih _

section Into

variable {τ : Type} {ms : List (Module τ)}

/-- Functions, globals and aliases are gathered independently of each other. -/
theorem mergeInto_eq_ok {out r : Module τ} (h : mergeInto out ms = .ok r) :
    mergeFuncs out.funcs (ms.flatMap Module.funcs) = .ok r.funcs ∧
    mergeGlobals out.globals (ms.flatMap Module.globals) = .ok r.globals ∧
    mergeAliases out.aliases (ms.flatMap Module.aliases) = .ok r.aliases := by
  induction ms generalizing out with
  | nil =>
    cases h
    exact ⟨rfl, rfl, rfl⟩
  | cons m ms ih =>
    obtain ⟨F, hF, h⟩ := bind_eq_ok.mp h
    obtain ⟨G, hG, h⟩ := bind_eq_ok.mp h
    obtain ⟨A, hA, h⟩ := bind_eq_ok.mp h
    simp only [List.flatMap_cons, mergeFuncs_append, mergeGlobals_append, mergeAliases_append, hF,
      hG, hA]
    exact ih h

theorem mergeInto_ok {out : Module τ}
    (hF : ∃ F, mergeFuncs out.funcs (ms.flatMap Module.funcs) = .ok F)
    (hG : ∃ G, mergeGlobals out.globals (ms.flatMap Module.globals) = .ok G)
    (hA : ∃ A, mergeAliases out.aliases (ms.flatMap Module.aliases) = .ok A) :
    ∃ r, mergeInto out ms = .ok r := by
  induction ms generalizing out with
  | nil => exact ⟨out, rfl⟩
  | cons m ms ih =>
    simp only [List.flatMap_cons, mergeFuncs_append, mergeGlobals_append, mergeAliases_append,
      bind_eq_ok] at hF hG hA
    obtain ⟨F', F, hF, hF'⟩ := hF
    obtain ⟨G', G, hG, hG'⟩ := hG
    obtain ⟨A', A, hA, hA'⟩ := hA
    obtain ⟨r, hr⟩ := @ih ⟨G, F, out.declares ++ m.declares, mergeTypes out.types m.types, A⟩
      ⟨F', hF'⟩ ⟨G', hG'⟩ ⟨A', hA'⟩
    exact ⟨r, bind_eq_ok.mpr ⟨F, hF, bind_eq_ok.mpr ⟨G, hG, bind_eq_ok.mpr ⟨A, hA, hr⟩⟩⟩⟩

/-- The modules after the first pass. -/
def linked (mods : List (Module τ)) : List (Module τ) := mods.mapIdx (passOne mods)

/-- `Merge` succeeds exactly if no function and no global is defined twice and no alias
    has two targets, by the names after the first pass. -/
theorem merge_ok_iff {mods : List (Module τ)} (hlen : mods.length ≠ 1) :
    (∃ out, merge mods = .ok out) ↔
      (((linked mods).flatMap Module.funcs).map Func.name).Nodup ∧
      (definedNames ((linked mods).flatMap Module.globals)).Nodup ∧
      OneTarget ((linked mods).flatMap Module.aliases) := by
  have hmerge : merge mods = mergeInto ⟨[], [], [], [], []⟩ (linked mods) := by
    unfold merge
    split
    · exact absurd rfl hlen
    · rfl
  have hone : OneTarget [] := fun _ _ _ h => by cases h
  have hF : ∀ fs : List Func, (∃ F, mergeFuncs [] fs = .ok F) ↔ (fs.map Func.name).Nodup := by
    intro fs
    have hnil : (([] : List Func).map Func.name).Nodup := List.nodup_nil
    simp [mergeFuncs_eq_ok hnil]
  have hG : ∀ gs : List Global, (∃ G, mergeGlobals [] gs = .ok G) ↔ (definedNames gs).Nodup := by
    intro gs
    have hnil : (([] : List Global).map Global.name).Nodup := List.nodup_nil
    rw [mergeGlobals_ok_iff hnil]
    exact and_iff_left fun x _ h => by cases h
  rw [hmerge, ← hF, ← hG, ← List.nil_append ((linked mods).flatMap Module.aliases),
    ← mergeAliases_ok_iff hone]
  constructor
  · rintro ⟨out, h⟩
    obtain ⟨hF, hG, hA⟩ := mergeInto_eq_ok h
    exact ⟨⟨_, hF⟩, ⟨_, hG⟩, ⟨_, hA⟩⟩
  · rintro ⟨hF, hG, hA⟩
    exact mergeInto_ok hF hG hA

end Into

end DmaCpu.Llir
