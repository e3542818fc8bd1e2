import Lark.Base.Rounding
import Lark.Column.Tensor

namespace Lark.Column.Exec

open Lark.Base

def unsupportedDtype : Exn := .runtimeError "op: unsupported dtype"

def promote (a b : DType) : DType :=
  if a = b then a
  else if a.isFloat && b.isFloat then .float64
  else if a.isFloat || b.isFloat then
    let f := if a.isFloat then a else b
    let i := if a.isFloat then b else a
    if i = .int64 then .float64 else f
  else .int64

def promoteScalar (a : DType) : DType := a

-- The kernels cast an operand only when its dtype differs; casting it to its own is the identity.
def castTensor (a : Tensor) (target : DType) : Except Exn Tensor :=
  if a.dtype = target then .ok a
  else
    match a, target with
    | .q8_0 _ _, _ => a.dequantize
    | .scalar _ _, .q8_0 => a.quantizeQ8_0
    | .scalar _ data, .scalar t => do
      let data ← data.mapM fun x => Elem.ofNum (Elem.toNum x)
      .ok (.scalar t data)

section

variable (fn : (t : ScalarType) → t.Carrier → t.Carrier → Except Exn t.Carrier)

def elementwiseBinary (a b : Tensor) (out : DType) : Except Exn Tensor := do
  if b.size ≠ a.size then
    .error (.runtimeError ("binary op: length mismatch (" ++ toString a.size ++ " vs " ++
      toString b.size ++ ")"))
  else
    let ra ← castTensor a out
    let rb ← castTensor b out
    match out with
    | .scalar t => do
      let pa ← ra.dataAs t
      let pb ← rb.dataAs t
      let r ← (List.zip pa pb).mapM fun p => fn t p.1 p.2
      .ok (.scalar t r)
    | .q8_0 => .error unsupportedDtype

def elementwiseScalar (a : Tensor) (v : Double) (out : DType) : Except Exn Tensor := do
  let ra ← castTensor a out
  match out with
  | .scalar t => do
    let pa ← ra.dataAs t
    let s ← Elem.ofDouble v
    let r ← pa.mapM fun x => fn t x s
    .ok (.scalar t r)
  | .q8_0 => .error unsupportedDtype

end

def elementwiseUnary (fn : (t : ScalarType) → t.Carrier → Except Exn t.Carrier) (a : Tensor)
    (out : DType) : Except Exn Tensor := do
  let ra ← castTensor a out
  match out with
  | .scalar t => do
    let pa ← ra.dataAs t
    let r ← pa.mapM (fn t)
    .ok (.scalar t r)
  | .q8_0 => .error unsupportedDtype

inductive ArithOp where
  | add
  | sub
  | mul
  | div
  deriving DecidableEq

def ArithOp.apply (op : ArithOp) (t : ScalarType) (x y : t.Carrier) : Except Exn t.Carrier :=
  match op with
  | .add => .ok (x + y)
  | .sub => .ok (x - y)
  | .mul => .ok (x * y)
  | .div => Elem.ofDouble (Elem.toDouble x / Elem.toDouble y)

def binaryArith (op : ArithOp) (a b : Tensor) : Except Exn Tensor :=
  elementwiseBinary op.apply a b (if op = .div then .float64 else promote a.dtype b.dtype)

def scalarArith (op : ArithOp) (scalar : Double) (a : Tensor) : Except Exn Tensor :=
  elementwiseScalar op.apply a scalar (if op = .div then .float64 else promoteScalar a.dtype)

inductive CmpOp where
  | gt
  | ge
  | lt
  | le
  | eq
  | neq
  deriving DecidableEq

def CmpOp.apply {α : Type} [Elem α] (op : CmpOp) (x y : α) : Bool :=
  match op with
  | .gt => Elem.lt y x
  | .ge => Elem.le y x
  | .lt => Elem.lt x y
  | .le => Elem.le x y
  | .eq => Elem.eq x y
  | .neq => !Elem.eq x y

def maskOf (b : Bool) : Int64 := if b then 1 else 0

def compare (op : CmpOp) (a b : Tensor) : Except Exn Tensor :=
  if a.size ≠ b.size then
    .error (.runtimeError ("compare: length mismatch (" ++ toString a.size ++ " vs " ++
      toString b.size ++ ")"))
  else
    match promote a.dtype b.dtype with
    | .scalar t => do
      let ra ← castTensor a (.scalar t)
      let rb ← castTensor b (.scalar t)
      let pa ← ra.dataAs t
      let pb ← rb.dataAs t
      .ok (.scalar .int64 ((List.zip pa pb).map fun p => maskOf (op.apply p.1 p.2)))
    | .q8_0 => .error unsupportedDtype

def compareScalar (op : CmpOp) (scalar : Double) (a : Tensor) : Except Exn Tensor :=
  match a with
  | .scalar t data => do
    let s : t.Carrier ← Elem.ofDouble scalar
    .ok (.scalar .int64 (data.map fun x => maskOf (op.apply x s)))
  | .q8_0 _ _ => .error unsupportedDtype

structure Libm where
  sqrt : Double → Double
  exp : Double → Double
  log : Double → Double

inductive UnaryKind where
  | neg
  | abs
  | square
  | sqrt
  | exp
  | log
  deriving DecidableEq

def throughDouble (f : Double → Double) (t : ScalarType) (x : t.Carrier) : Except Exn t.Carrier :=
  Elem.ofDouble (f (Elem.toDouble x))

-- `x < 0` compares with the integer literal converted to the element type.
def isNegative {α : Type} [Elem α] (x : α) : Bool := (Elem.toDouble x).lt 0

def unary (libm : Libm) (kind : UnaryKind) (a : Tensor) : Except Exn Tensor :=
  match kind with
  | .neg => elementwiseUnary (fun _ x => .ok (-x)) a a.dtype
  | .abs => elementwiseUnary (fun _ x => .ok (if isNegative x then -x else x)) a a.dtype
  | .square => elementwiseUnary (fun _ x => .ok (x * x)) a a.dtype
  | .sqrt => elementwiseUnary (throughDouble libm.sqrt) a .float64
  | .exp => elementwiseUnary (throughDouble libm.exp) a .float64
  | .log => elementwiseUnary (throughDouble libm.log) a .float64

inductive ReduceKind where
  | sum
  | mean
  | count
  | max
  | min
  | stddev
  deriving DecidableEq

def ofInt64 (n : Int64) : Double := .round n.toInt

def tensorSum : Tensor → Except Exn Double
  | .scalar .int32 data =>
    .ok (ofInt64 ((data.map fun (x : Int32) => Int64.ofInt x.toInt).foldl (· + ·) 0))
  | .scalar .int64 data => .ok (ofInt64 (data.foldl (fun (s x : Int64) => s + x) 0))
  | .scalar .float32 data => .ok (data.foldl (fun (s x : Double) => s + x) 0)
  | .scalar .float64 data => .ok (data.foldl (fun (s x : Double) => s + x) 0)
  | .q8_0 _ _ => .error (.runtimeError "reduce: unsupported dtype")

def reduceToScalar (t : ScalarType) (value : Double) : Except Exn Tensor := do
  let v ← Elem.ofDouble value
  .ok (.scalar t [v])

def reduceMinmax (a : Tensor) (wantMax : Bool) : Except Exn Tensor :=
  match a with
  | .scalar t [] => do
    let v ← Elem.ofDouble 0
    .ok (.scalar t [v])
  | .scalar t (x :: xs) =>
    .ok (.scalar t [xs.foldl (fun acc y =>
      if (if wantMax then Elem.lt acc y else Elem.lt y acc) then y else acc) x])
  | .q8_0 _ _ => .error unsupportedDtype

def tensorMean (a : Tensor) : Except Exn Double :=
  if a.size = 0 then .ok 0
  else do
    let s ← tensorSum a
    .ok (s / .num a.size)

def reduce (libm : Libm) (kind : ReduceKind) (a : Tensor) : Except Exn Tensor :=
  match kind with
  | .sum => tensorSum a >>= reduceToScalar .float64
  | .mean => tensorMean a >>= reduceToScalar .float64
  | .count => reduceToScalar .int64 (.num a.size)
  | .max => reduceMinmax a true
  | .min => reduceMinmax a false
  | .stddev => do
    let mean ← tensorMean a
    let xs : List Double ← match a with
      | .scalar _ data => Except.ok (data.map Elem.toDouble)
      | .q8_0 _ _ => Except.ok []
    let sq := xs.foldl (fun acc x => acc + (x - mean) * (x - mean)) 0
    reduceToScalar .float64 (if a.size = 0 then 0 else libm.sqrt (sq / .num a.size))

def select (mask a b : Tensor) : Except Exn Tensor :=
  match mask with
  | .scalar .int64 m =>
    if m.length ≠ a.size ∨ b.size ≠ a.size then .error (.runtimeError "select: length mismatch")
    else
      match promote a.dtype b.dtype with
      | .scalar t => do
        let ra ← castTensor a (.scalar t)
        let rb ← castTensor b (.scalar t)
        let pa ← ra.dataAs t
        let pb ← rb.dataAs t
        .ok (.scalar t (List.zipWith (fun (k : Int64) p => if k = 0 then p.2 else p.1) m
          (List.zip pa pb)))
      | .q8_0 => .error unsupportedDtype
  | _ => .error (.runtimeError "select: mask must be int64")

def filter (data mask : Tensor) : Except Exn Tensor :=
  match mask with
  | .scalar .int64 m =>
    if m.length ≠ data.size then .error (.runtimeError "filter: mask length mismatch")
    else
      match data with
      | .scalar t xs =>
        .ok (.scalar t (((List.zip m xs).filter fun p => (p.1 : Int64) ≠ 0).map Prod.snd))
      | .q8_0 _ _ => .error (.runtimeError "filter: cannot filter a quantized tensor")
  | _ => .error (.runtimeError "filter: mask must be int64")

def quantize (a : Tensor) : Except Exn Tensor :=
  if a.dtype.isFloat then a.quantizeQ8_0
  else .error (.runtimeError "quantize: input must be a float tensor")

def dequantize (a : Tensor) : Except Exn Tensor :=
  if a.dtype.isQuantized then a.dequantize
  else .error (.runtimeError "dequantize: input must be a q8_0 tensor")

def dot (a b : Tensor) : Except Exn Tensor :=
  if a.dtype.isQuantized && b.dtype.isQuantized then do
    let v ← a.dotQ8_0 b
    .ok (.scalar .float64 [v])
  else .error (.runtimeError "dot: both inputs must be q8_0 tensors")

def splitComma : List Char → List (List Char)
  | [] => [[]]
  | c :: cs =>
    match splitComma cs with
    | [] => [[c]]
    | w :: ws => if c = ',' then [] :: w :: ws else (c :: w) :: ws

def buildConst (value : String) (dtype : DType) (size : Nat) : Except Exn Tensor :=
  if value.toList.contains ',' then do
    let values ← (splitComma value.toList).mapM fun w => stod (String.ofList w)
    match dtype with
    | .scalar t => do
      let data ← values.mapM Elem.ofDouble
      .ok (.scalar t data)
    | .q8_0 => .error unsupportedDtype
  else do
    let v ← stod value
    Tensor.full size v dtype

end Lark.Column.Exec
