-- SUMMARY: Parsed modules of textual LLVM IR, and `Merge` with its renaming pass.
import Mathlib.Algebra.Ring.Nat
import Mathlib.Data.List.Basic

/-!
# Modules and linking

The parts of `llir`'s modules that carry symbol names, and the whole-program link of
`merge.go`. A constant expression has been folded into the name and the offset of
its global when it was parsed, so its only name is the operand's. Go's maps are
association lists here, in some order of iteration. An empty name stands for no symbol.
-/
namespace DmaCpu.Llir

inductive ValueKind where
  | local
  | global
  | const
  | func
deriving DecidableEq, Repr

structure Value where
  kind : ValueKind
  name : String
deriving DecidableEq, Repr

/-- A global initializer: the symbol whose address it is, and its elements. -/
inductive Init where
  | node (sym : String) (elems : List Init)

structure Instr where
  args : List Value
  calleeVal : Option Value
  /-- The values of the phi edges. -/
  phi : List Value
  callee : String
deriving DecidableEq, Repr

structure Block where
  instrs : List Instr
deriving DecidableEq, Repr

structure Func where
  name : String
  /-- How many parameters it has. -/
  params : Nat
  internal : Bool
  blocks : List Block
deriving DecidableEq, Repr

structure Global where
  name : String
  init : Option Init
  /-- Declared, not defined. -/
  external : Bool
  internal : Bool

/-- A parsed file, with types from `τ`. -/
structure Module (τ : Type) where
  globals : List Global
  funcs : List Func
  declares : List String
  types : List (String × τ)
  /-- Name and target. -/
  aliases : List (String × String)

inductive MergeError where
  | funcTwice (name : String) (params params' : Nat)
  | globalTwice (name : String)
  | aliasConflict (name target target' : String)
deriving DecidableEq, Repr

/-! ## Renaming -/

abbrev Ren := List (String × String)

def Ren.apply (ren : Ren) (x : String) : String := (ren.lookup x).getD x

def Value.rename (ren : Ren) (v : Value) : Value :=
  if v.kind = .global ∨ v.kind = .func then { v with name := ren.apply v.name } else v

mutual

def Init.rename (ren : Ren) : Init → Init
  | .node sym elems => .node (ren.apply sym) (Init.renameAll ren elems)

def Init.renameAll (ren : Ren) : List Init → List Init
  | [] => []
  | i :: is => i.rename ren :: Init.renameAll ren is

end

def Instr.rename (ren : Ren) (ins : Instr) : Instr where
  args := ins.args.map (Value.rename ren)
  calleeVal := ins.calleeVal.map (Value.rename ren)
  phi := ins.phi.map (Value.rename ren)
  callee := ren.apply ins.callee

def Func.rename (ren : Ren) (f : Func) : Func :=
  { f with
    name := ren.apply f.name
    blocks := f.blocks.map fun b => ⟨b.instrs.map (Instr.rename ren)⟩ }

def Global.rename (ren : Ren) (g : Global) : Global :=
  { g with name := ren.apply g.name, init := g.init.map (Init.rename ren) }

section Merge

variable {τ : Type}

/-- `renameModule`. -/
def Module.rename (ren : Ren) (m : Module τ) : Module τ :=
  { m with funcs := m.funcs.map (Func.rename ren), globals := m.globals.map (Global.rename ren) }

/-! ## The first pass -/

/-- The names that `Merge` counts as defined. -/
def Module.own (m : Module τ) : List String :=
  m.funcs.map Func.name ++ (m.globals.filter fun g => !g.external).map Global.name

/-- The names defined with internal or private linkage. -/
def Module.internals (m : Module τ) : List String :=
  (m.funcs.filter Func.internal).map Func.name ++
    (m.globals.filter fun g => g.internal && !g.external).map Global.name

def defCount (mods : List (Module τ)) (x : String) : Nat := (mods.map fun m => m.own.count x).sum

def mangle (x : String) (i : Nat) : String := x ++ "__m" ++ toString i

/-- `ren` of module `i`. -/
def renames (mods : List (Module τ)) (i : Nat) (m : Module τ) : Ren :=
  (m.internals.filter fun x => 1 < defCount mods x).map fun x => (x, mangle x i)

/-- Module `i` after the first pass; a list of one module is returned as it is. -/
def passOne (mods : List (Module τ)) (i : Nat) (m : Module τ) : Module τ :=
  if mods.length = 1 then m else m.rename (renames mods i m)

/-! ## The second pass -/

def mergeFuncs : List Func → List Func → Except MergeError (List Func)
  | out, [] => .ok out
  | out, f :: fs =>
    match out.find? fun prev => prev.name = f.name with
    | some prev => .error (.funcTwice f.name prev.params f.params)
    | none => mergeFuncs (out ++ [f]) fs

def mergeGlobals : List Global → List Global → Except MergeError (List Global)
  | out, [] => .ok out
  | out, g :: gs =>
    match out.findIdx? fun prev => prev.name = g.name with
    | none => mergeGlobals (out ++ [g]) gs
    | some idx =>
      match out[idx]? with
      | none => mergeGlobals out gs
      | some prev =>
        -- definition wins
        if prev.external && !g.external then mergeGlobals (out.set idx g) gs
        else if !prev.external && !g.external then .error (.globalTwice g.name)
        -- both external, or prev already defined: keep prev
        else mergeGlobals out gs

def mergeTypes (out types : List (String × τ)) : List (String × τ) :=
  types.foldl (fun out kv => if (out.lookup kv.1).isSome then out else out ++ [kv]) out

def mergeAliases : List (String × String) → List (String × String) →
    Except MergeError (List (String × String))
  | out, [] => .ok out
  | out, (a, t) :: as =>
    match out.lookup a with
    | some prev => if prev ≠ t then .error (.aliasConflict a prev t) else mergeAliases out as
    | none => mergeAliases (out ++ [(a, t)]) as

def mergeInto : Module τ → List (Module τ) → Except MergeError (Module τ)
  | out, [] => .ok out
  | out, m :: ms => do
    let types := mergeTypes out.types m.types
    let funcs ← mergeFuncs out.funcs m.funcs
    let globals ← mergeGlobals out.globals m.globals
    let declares := out.declares ++ m.declares
    let aliases ← mergeAliases out.aliases m.aliases
    mergeInto ⟨globals, funcs, declares, types, aliases⟩ ms

/-- `Merge`. -/
def merge (mods : List (Module τ)) : Except MergeError (Module τ) :=
  match mods with
  | [m] => .ok m
  | _ => mergeInto ⟨[], [], [], [], []⟩ (mods.mapIdx (passOne mods))

end Merge

end DmaCpu.Llir
