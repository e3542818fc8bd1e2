import Lark.Dag.OpGraph
import Lark.Toolkit.DslSyntax

namespace Lark.Dag

open Lark.Base Lark.Toolkit.Dsl

-- What `make_unique` of a registered class returns: an object at a new address.
structure OpObject where
  ptr : Nat
  name : String
  deriving DecidableEq

-- A registered type name gives the `Name()` of the class that its factory makes.
abbrev OpRegistry := String → Option String

def OpRegistry.create (registry : OpRegistry) (ptr : Nat) (typeName : String) :
    Except Exn OpObject :=
  match registry typeName with
  | none => .error (.outOfRange ("OpRegistry: unknown op type '" ++ typeName ++ "'"))
  | some name => .ok ⟨ptr, name⟩

structure OpDef where
  type : String
  deps : List String
  id : String

def OpDef.nodeId (d : OpDef) : String := if d.id = "" then d.type else d.id

variable {β : Type}

structure OpGraphBuilder (β : Type) where
  registry : OpRegistry
  aspects : List β

namespace OpGraphBuilder

def addAspect (b : OpGraphBuilder β) : Option β → OpGraphBuilder β
  | none => b
  | some a => { b with aspects := b.aspects ++ [a] }

abbrev Graph (β : Type) := OpGraph OpObject β

def addOps (registry : OpRegistry) : List OpDef → Graph β → (String → Option OpObject) →
    Except Exn (Graph β × (String → Option OpObject))
  | [], g, byId => .ok (g, byId)
  | d :: defs, g, byId =>
    if d.type = "" then .error (.invalidArgument "OpGraphBuilder: node def has empty type")
    else do
      let op ← registry.create g.ops.length d.type
      let g ← g.addOp OpObject.name (some op) d.nodeId
      addOps registry defs g (Function.update byId d.nodeId (some op))

def addDeps (byId : String → Option OpObject) (id : String) : List String → Graph β →
    Except Exn (Graph β)
  | [], g => .ok g
  | dep :: deps, g =>
    match byId dep with
    | none => .error (.invalidArgument
        ("OpGraphBuilder: node '" ++ id ++ "' depends on unknown id '" ++ dep ++ "'"))
    | some _ => do
      let g ← g.dependsOn dep id
      addDeps byId id deps g

def addAllDeps (byId : String → Option OpObject) : List OpDef → Graph β → Except Exn (Graph β)
  | [], g => .ok g
  | d :: defs, g => do
    let g ← addDeps byId d.nodeId d.deps g
    addAllDeps byId defs g

def build (b : OpGraphBuilder β) (defs : List OpDef) : Except Exn (Graph β) := do
  let g := b.aspects.foldl (fun g aspect => g.addAspect (some aspect)) .empty
  let (g, byId) ← addOps b.registry defs g fun _ => none
  addAllDeps byId defs g

def segment (lx : Lexer) : Except Exn ((String × String) × Lexer) := do
  let (id, lx) ← Parser.expectToken lx .ident "identifier"
  let (typed, lx) ← Parser.matchSymbol lx ":"
  if typed then
    let (type, lx) ← Parser.expectToken lx .ident "identifier"
    .ok ((id.text, type.text), lx)
  else .ok ((id.text, id.text), lx)

structure Defs where
  defs : List OpDef
  index : String → Option Nat

namespace Defs

def empty : Defs := ⟨[], fun _ => none⟩

def ensure (d : Defs) (id type : String) : Except Exn (Nat × Defs) :=
  match d.index id with
  | some slot =>
    match d.defs[slot]? with
    | none => .error (.undefined "index past the end of defs")
    | some found =>
      if found.type ≠ type then .error (.invalidArgument
        ("OpGraphBuilder DSL: node id '" ++ id ++ "' used with two different types"))
      else .ok (slot, d)
  | none => .ok (d.defs.length,
      ⟨d.defs ++ [⟨type, [], id⟩], Function.update d.index id (some d.defs.length)⟩)

def addDep (d : Defs) (slot : Nat) (prev : String) : Defs :=
  { d with defs := d.defs.modify slot fun found => { found with deps := found.deps ++ [prev] } }

end Defs

def chain : Nat → String → Defs → Lexer → Except Exn (Defs × Lexer)
  | 0, _, _, _ => .error .fuel
  | fuel + 1, prev, d, lx => do
    let (arrow, lx) ← Parser.matchSymbol lx "->"
    if arrow then
      let ((id, type), lx) ← segment lx
      let (slot, d) ← d.ensure id type
      chain fuel id (d.addDep slot prev) lx
    else .ok (d, lx)

def statements : Nat → Defs → Lexer → Except Exn Defs
  | 0, _, _ => .error .fuel
  | fuel + 1, d, lx => do
    let (done, lx) ← Parser.atEnd lx
    if done then .ok d
    else
      let ((id, type), lx) ← segment lx
      let (_, d) ← d.ensure id type
      let (d, lx) ← chain fuel id d lx
      let (_, lx) ← Parser.matchSymbol lx ";"
      statements fuel d lx

def arrowSymbols : List Char := [':']

def arrowMulti : List (List Char) := [['-', '>']]

-- Every round of either loop reads a token, so the length of the text bounds both.
def buildDsl (b : OpGraphBuilder β) (dsl : String) : Except Exn (Graph β) := do
  let d ← statements (dsl.length + 1) .empty (.make dsl arrowSymbols arrowMulti)
  b.build d.defs

end OpGraphBuilder

end Lark.Dag
