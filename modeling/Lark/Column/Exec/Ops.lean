import Lark.Column.TensorStore
import Lark.Column.Exec.Kernels

namespace Lark.Column.Exec

open Lark.Base

structure OpSpec where
  type : String
  inputs : List String
  outputs : List String
  attrs : List (String × String) := []
  deriving DecidableEq

def OpSpec.attr? (spec : OpSpec) (key : String) : Option String := spec.attrs.lookup key

inductive Kernel where
  | binaryArith (op : ArithOp)
  | scalarArith (op : ArithOp) (scalar : Double)
  | unary (kind : UnaryKind)
  | reduce (kind : ReduceKind)
  | compare (kind : CmpOp)
  | compareScalar (kind : CmpOp) (scalar : Double)
  | select
  | filter
  | cast (dtype : DType)
  | quantize
  | dequantize
  | dot
  | const (value dtype size : String)
  | identity
  deriving DecidableEq

structure Op where
  type : String
  inputs : List String
  outputs : List String
  kernel : Kernel
  deriving DecidableEq

def binaryTypes : List (String × ArithOp) :=
  [("add", .add), ("sub", .sub), ("mul", .mul), ("div", .div)]

def scalarTypes : List (String × ArithOp) :=
  [("add_scalar", .add), ("sub_scalar", .sub), ("mul_scalar", .mul), ("div_scalar", .div)]

def unaryTypes : List (String × UnaryKind) :=
  [("neg", .neg), ("abs", .abs), ("square", .square), ("sqrt", .sqrt), ("exp", .exp), ("log", .log)]

def reduceTypes : List (String × ReduceKind) :=
  [("sum", .sum), ("mean", .mean), ("count", .count), ("max", .max), ("min", .min),
    ("stddev", .stddev)]

def compareTypes : List (String × CmpOp) :=
  [("gt", .gt), ("ge", .ge), ("lt", .lt), ("le", .le), ("eq", .eq), ("neq", .neq)]

def compareScalarTypes : List (String × CmpOp) :=
  [("gt_scalar", .gt), ("ge_scalar", .ge), ("lt_scalar", .lt), ("le_scalar", .le),
    ("eq_scalar", .eq), ("neq_scalar", .neq)]

def createBinaryOp (spec : OpSpec) : Except Exn (Option Kernel) :=
  match binaryTypes.lookup spec.type with
  | some op => .ok (some (.binaryArith op))
  | none =>
    match scalarTypes.lookup spec.type with
    | some op =>
      match spec.attr? "scalar" with
      | none =>
        .error (.invalidArgument ("scalar op '" ++ spec.type ++ "' requires attr 'scalar'"))
      | some text => do
        let scalar ← stod text
        .ok (some (.scalarArith op scalar))
    | none => .ok none

def createUnaryOp (spec : OpSpec) : Option Kernel := (unaryTypes.lookup spec.type).map .unary

def createReduceOp (spec : OpSpec) : Option Kernel := (reduceTypes.lookup spec.type).map .reduce

def createCompareOp (spec : OpSpec) : Except Exn (Option Kernel) :=
  match compareTypes.lookup spec.type with
  | some op => .ok (some (.compare op))
  | none =>
    match compareScalarTypes.lookup spec.type with
    | some op =>
      match spec.attr? "scalar" with
      | none =>
        .error (.invalidArgument ("scalar compare '" ++ spec.type ++ "' requires attr 'scalar'"))
      | some text => do
        let scalar ← stod text
        .ok (some (.compareScalar op scalar))
    | none => .ok none

def createSpecialOp (spec : OpSpec) : Except Exn (Option Kernel) :=
  if spec.type = "select" then
    if spec.inputs.length ≠ 3 then
      .error (.invalidArgument "select requires 3 inputs (mask,a,b)")
    else .ok (some .select)
  else if spec.type = "filter" then
    if spec.inputs.length ≠ 2 then
      .error (.invalidArgument "filter requires 2 inputs (data,mask)")
    else .ok (some .filter)
  else if spec.type = "cast" then
    match spec.attr? "dtype" with
    | none => .error (.invalidArgument "cast requires attr 'dtype'")
    | some name => do
      let dtype ← parseDtype name
      .ok (some (.cast dtype))
  else if spec.type = "quantize" then .ok (some .quantize)
  else if spec.type = "dequantize" then .ok (some .dequantize)
  else if spec.type = "dot" then .ok (some .dot)
  else if spec.type = "const" then
    match spec.attr? "value" with
    | none => .error (.invalidArgument "const requires attr 'value'")
    | some value => .ok (some (.const value ((spec.attr? "dtype").getD "float64")
        ((spec.attr? "size").getD "1")))
  else if spec.type = "identity" then .ok (some .identity)
  else .ok none

def createKernel (spec : OpSpec) : Except Exn Kernel := do
  match ← createBinaryOp spec with
  | some k => .ok k
  | none =>
    match createUnaryOp spec with
    | some k => .ok k
    | none =>
      match createReduceOp spec with
      | some k => .ok k
      | none =>
        match ← createCompareOp spec with
        | some k => .ok k
        | none =>
          match ← createSpecialOp spec with
          | some k => .ok k
          | none =>
            .error (.invalidArgument ("create_op: unknown op type '" ++ spec.type ++ "'"))

def createOp (spec : OpSpec) : Except Exn Op := do
  let kernel ← createKernel spec
  .ok ⟨spec.type, spec.inputs, spec.outputs, kernel⟩

def runKernel (libm : Libm) (kernel : Kernel) (input : Nat → Except Exn Tensor) :
    Except Exn Tensor :=
  match kernel with
  | .binaryArith op => do binaryArith op (← input 0) (← input 1)
  | .scalarArith op scalar => do scalarArith op scalar (← input 0)
  | .unary kind => do unary libm kind (← input 0)
  | .reduce kind => do reduce libm kind (← input 0)
  | .compare kind => do compare kind (← input 0) (← input 1)
  | .compareScalar kind scalar => do compareScalar kind scalar (← input 0)
  | .select => do select (← input 0) (← input 1) (← input 2)
  | .filter => do filter (← input 0) (← input 1)
  | .cast dtype => do castTensor (← input 0) dtype
  | .quantize => do quantize (← input 0)
  | .dequantize => do dequantize (← input 0)
  | .dot => do dot (← input 0) (← input 1)
  | .const value dtype size => do
    let dtype ← parseDtype dtype
    let size ← stoull size
    buildConst value dtype size
  | .identity => input 0

namespace Op

def input (op : Op) (store : TensorStore) (i : Nat) : Except Exn Tensor :=
  match op.inputs[i]? with
  | none => .error (.undefined "inputs_ index out of range")
  | some name =>
    match store.find name with
    | none => .error (.outOfRange ("OpContext::input: unknown tensor '" ++ name ++ "'"))
    | some t => .ok t

def output (op : Op) (store : TensorStore) (t : Tensor) : Except Exn TensorStore :=
  match op.outputs[0]? with
  | none => .error (.undefined "outputs_ index out of range")
  | some name => .ok (store.set name t)

-- An identity from a column to itself is the compiler's ordering anchor: it touches nothing.
def isAnchor (op : Op) : Bool :=
  op.kernel = .identity && op.inputs.head?.isSome && op.inputs.head? = op.outputs.head?

def compute (libm : Libm) (op : Op) (store : TensorStore) : Except Exn TensorStore :=
  if op.isAnchor then .ok store
  else do
    let t ← runKernel libm op.kernel (op.input store)
    op.output store t

end Op

end Lark.Column.Exec
