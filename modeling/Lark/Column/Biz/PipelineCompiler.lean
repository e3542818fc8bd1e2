import Lark.Base.Run
import Lark.Column.Biz.Dsl
import Lark.Column.Exec.ComputeGraph

namespace Lark.Column.Biz

open Lark.Base Lark.Column.Exec

structure Module where
  name : String
  inputs : List String
  outputs : List String
  dependencies : List String
  ops : List OpSpec
  deriving DecidableEq

namespace Module

def make (name : String) : Module := ⟨name, [], [], [], []⟩

variable (m : Module)

def input (port : String) : Module := { m with inputs := m.inputs ++ [port] }

def output (port : String) : Module := { m with outputs := m.outputs ++ [port] }

def dependsOn (name : String) : Module := { m with dependencies := m.dependencies ++ [name] }

def op (spec : OpSpec) : Module := { m with ops := m.ops ++ [spec] }

def fromDsl (source : String) : Except Exn Module := do
  let specs ← Dsl.parse source
  .ok { m with ops := m.ops ++ specs }

end Module

structure CompiledModule where
  name : String
  outputNames : List String
  tail : String
  outputNodes : List String

structure Compiler where
  graph : ComputeGraph
  columnProducer : String → Option String
  columnModule : String → Option String
  moduleInfo : String → Option CompiledModule
  columnPlaceholder : String → Option String
  moduleTailPlaceholder : String → Option String

def Compiler.start (g : ComputeGraph) : Compiler :=
  ⟨g, fun _ => none, fun _ => none, fun _ => none, fun _ => none, fun _ => none⟩

-- The state outlives an exception: `compile` can leave a partial graph behind.
abbrev CompileM : Type → Type := EStateM Exn Compiler

def inputId (module port : String) : String := module ++ "/@in:" ++ port

def opId (module : String) (idx : Nat) : String := module ++ "/op" ++ toString idx

def outputId (module port : String) : String := module ++ "/@out:" ++ port

def noopId (module : String) : String := module ++ "/@noop"

def depId (module dep : String) : String := module ++ "/@dep:" ++ dep

def placeholderId (col : String) : String := "@placeholder:" ++ col

def tailPlaceholderId (dep : String) : String := "@tail:" ++ dep

def startsWithAt (col : String) : Bool := col.toList.head? = some '@'

-- Names that pass 1 skips: module-local temporaries and the empty name.
def isLocalName (col : String) : Bool := col.isEmpty || startsWithAt col

def remapTemp (col module : String) : String :=
  "@" ++ module ++ "/" ++ String.ofList (col.toList.drop 1)

def remap (module col : String) : String := if startsWithAt col then remapTemp col module else col

def remapSpec (module : String) (spec : OpSpec) : OpSpec :=
  { spec with
    inputs := spec.inputs.map (remap module)
    outputs := spec.outputs.map (remap module) }

def identitySpec (col : String) : OpSpec := ⟨"identity", [col], [col], []⟩

namespace CompileM

def orThrow {α : Type} : Except Exn α → CompileM α
  | .ok a => pure a
  | .error e => throw e

def addNode (id module : String) (op : NodeOp) : CompileM Unit :=
  modify fun c => { c with graph := c.graph.addNode id module op }

def addPlaceholder (output id : String) : CompileM Unit :=
  modify fun c => { c with graph := c.graph.addPlaceholder output id }

def onGraph (f : ComputeGraph → Except Exn ComputeGraph) : CompileM Unit := do
  let g ← orThrow (f (← get).graph)
  modify fun c => { c with graph := g }

def addDependency (id depId : String) : CompileM Unit := onGraph (·.addDependency id depId)

def replacePlaceholder (placeholderId realId : String) : CompileM Unit :=
  onGraph (·.replacePlaceholder placeholderId realId)

end CompileM

open CompileM

-- The set of written columns has no order; which column an ambiguity is reported for is open.
def Module.written (m : Module) : List String := m.outputs ++ m.ops.flatMap (·.outputs)

def collectColumn (m : Module) (col : String) : CompileM Unit :=
  if isLocalName col then pure ()
  else do
    match (← get).columnModule col with
    | none =>
      modify fun c => { c with columnModule := Function.update c.columnModule col (some m.name) }
    | some owner =>
      if owner ≠ m.name then
        throw (.invalidArgument ("PipelineCompiler: column '" ++ col ++ "' produced by both '" ++
          owner ++ "' and '" ++ m.name ++ "'"))

def collectColumnProducers (modules : List Module) : CompileM Unit :=
  modules.forM fun m => m.written.forM (collectColumn m)

def checkDependencies (modules : List Module) (moduleNames : List String) : CompileM Unit :=
  modules.forM fun m => m.dependencies.forM fun dep => do
    if dep ∉ moduleNames then
      throw (.invalidArgument ("PipelineCompiler: module '" ++ m.name ++
        "' depends_on unknown module '" ++ dep ++ "'"))

def ensureColumnPlaceholder (col : String) : CompileM String := do
  match (← get).columnPlaceholder col with
  | some id => pure id
  | none => do
    addPlaceholder col (placeholderId col)
    modify fun c => { c with
      columnPlaceholder := Function.update c.columnPlaceholder col (some (placeholderId col)) }
    pure (placeholderId col)

def registerProducer (col nodeId moduleName : String) : CompileM Unit := do
  modify fun c => { c with
    columnProducer := Function.update c.columnProducer col (some nodeId)
    columnModule := Function.update c.columnModule col (some moduleName) }
  match (← get).columnPlaceholder col with
  | some id => do
    replacePlaceholder id nodeId
    modify fun c => { c with columnPlaceholder := Function.update c.columnPlaceholder col none }
  | none => pure ()

abbrev Locals : Type := String → Option String

def resolveInputDep (col : String) (locals : Locals) (moduleName : String) :
    CompileM (Option String) := do
  match locals col with
  | some id => pure (some id)
  | none =>
    match (← get).columnProducer col with
    | some id => pure (some id)
    | none =>
      match (← get).columnModule col with
      | some owner =>
        if owner ≠ moduleName then do
          let id ← ensureColumnPlaceholder col
          pure (some id)
        else pure none
      | none => pure none

def wireInput (nodeId col : String) (locals : Locals) (moduleName : String) : CompileM Unit := do
  match ← resolveInputDep col locals moduleName with
  | some dep => addDependency nodeId dep
  | none => pure ()

-- The variables of CompileModule; an empty string is a node that is not there yet.
structure Frame where
  locals : Locals
  firstNode : String
  tail : String
  outputNodes : List String

def Frame.start : Frame := ⟨fun _ => none, "", "", []⟩

def Frame.bind (fr : Frame) (col nodeId : String) : Frame :=
  { fr with locals := Function.update fr.locals col (some nodeId) }

def addAnchor (m : Module) (nodeId col : String) (fr : Frame) : CompileM Frame := do
  let op ← orThrow (createOp (identitySpec col))
  addNode nodeId m.name (.op op)
  pure { fr with firstNode := if fr.firstNode.isEmpty then nodeId else fr.firstNode }

def compileInput (m : Module) (fr : Frame) (port : String) : CompileM Frame := do
  let fr ← addAnchor m (inputId m.name port) port fr
  wireInput (inputId m.name port) port fr.locals m.name
  pure (fr.bind port (inputId m.name port))

def compileWrite (m : Module) (nodeId : String) (locals : Locals) (out : String) :
    CompileM Locals := do
  if out.isEmpty then pure locals
  else if (locals out).isSome then
    throw (.invalidArgument ("PipelineCompiler: column '" ++ out ++ "' written twice in module '" ++
      m.name ++ "'"))
  else do
    registerProducer out nodeId m.name
    pure (Function.update locals out (some nodeId))

def compileOp (m : Module) (fr : Frame) (entry : OpSpec × Nat) : CompileM Frame := do
  let spec := remapSpec m.name entry.1
  let nodeId := opId m.name entry.2
  let op ← orThrow (createOp spec)
  addNode nodeId m.name (.op op)
  spec.inputs.forM fun col => wireInput nodeId col fr.locals m.name
  let locals ← spec.outputs.foldlM (compileWrite m nodeId) fr.locals
  pure { fr with locals := locals, tail := nodeId }

def compileOutput (m : Module) (fr : Frame) (port : String) : CompileM Frame := do
  match fr.locals port with
  | some nodeId => pure { fr with outputNodes := fr.outputNodes ++ [nodeId] }
  | none => do
    let nodeId := outputId m.name port
    let fr ← addAnchor m nodeId port fr
    wireInput nodeId port fr.locals m.name
    registerProducer port nodeId m.name
    pure { fr.bind port nodeId with
      outputNodes := fr.outputNodes ++ [nodeId]
      tail := nodeId }

def compileNoop (m : Module) (fr : Frame) : CompileM Frame :=
  if fr.tail.isEmpty then do
    let fr ← addAnchor m (noopId m.name) ("@noop:" ++ m.name) fr
    pure { fr with tail := noopId m.name }
  else pure fr

def tailPlaceholder (dep : String) : CompileM String := do
  match (← get).moduleTailPlaceholder dep with
  | some id => pure id
  | none => do
    modify fun c => { c with
      moduleTailPlaceholder :=
        Function.update c.moduleTailPlaceholder dep (some (tailPlaceholderId dep)) }
    addPlaceholder ("@tail:" ++ dep) (tailPlaceholderId dep)
    pure (tailPlaceholderId dep)

def wireDep (nodeId dep : String) : CompileM Unit := do
  match (← get).moduleInfo dep with
  | some info =>
    if info.outputNodes ≠ [] then info.outputNodes.forM fun out => addDependency nodeId out
    else if info.tail.isEmpty then pure ()
    else addDependency nodeId info.tail
  | none => do
    let tail ← tailPlaceholder dep
    addDependency nodeId tail

def wireFirst (firstNode nodeId : String) : CompileM Unit :=
  if firstNode.isEmpty ∨ firstNode = nodeId then pure () else addDependency firstNode nodeId

def compileDep (m : Module) (fr : Frame) (dep : String) : CompileM Frame := do
  let fr ← addAnchor m (depId m.name dep) m.name fr
  wireDep (depId m.name dep) dep
  wireFirst fr.firstNode (depId m.name dep)
  pure { fr with tail := if fr.tail.isEmpty then depId m.name dep else fr.tail }

def replaceTail (m : Module) (fr : Frame) : CompileM Unit := do
  match (← get).moduleTailPlaceholder m.name with
  | some id =>
    if fr.tail.isEmpty then pure ()
    else do
      replacePlaceholder id fr.tail
      modify fun c =>
        { c with moduleTailPlaceholder := Function.update c.moduleTailPlaceholder m.name none }
  | none => pure ()

def compileModule (m : Module) : CompileM Unit := do
  let fr ← m.inputs.foldlM (compileInput m) .start
  let fr ← m.ops.zipIdx.foldlM (compileOp m) fr
  let fr ← m.outputs.foldlM (compileOutput m) fr
  let fr ← compileNoop m fr
  let fr ← m.dependencies.foldlM (compileDep m) fr
  replaceTail m fr
  modify fun c => { c with
    moduleInfo := Function.update c.moduleInfo m.name
      (some ⟨m.name, m.outputs, fr.tail, fr.outputNodes⟩) }

def compile (modules : List Module) (moduleNames : List String) : CompileM Unit := do
  modify fun c => .start c.graph
  collectColumnProducers modules
  checkDependencies modules moduleNames
  modules.forM compileModule
  if (← get).graph.hasPlaceholders then
    throw (.runtimeError ("PipelineCompiler: unresolved forward references (a referenced " ++
      "column/tail was never produced)"))

end Lark.Column.Biz
