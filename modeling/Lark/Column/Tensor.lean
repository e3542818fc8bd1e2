import Lark.Base.Strings

namespace Lark.Column

open Lark.Base

inductive ScalarType where
  | int32
  | int64
  | float32
  | float64
  deriving DecidableEq

inductive DType where
  | scalar (t : ScalarType)
  | q8_0
  deriving DecidableEq

namespace DType

def int32 : DType := .scalar .int32

def int64 : DType := .scalar .int64

def float32 : DType := .scalar .float32

def float64 : DType := .scalar .float64

def isFloat (d : DType) : Bool := d = float32 || d = float64

def isQuantized (d : DType) : Bool := d = q8_0

end DType

def parseDtype (s : String) : Except Exn DType :=
  if s = "int32" then .ok .int32
  else if s = "int64" then .ok .int64
  else if s = "float32" ∨ s = "float" then .ok .float32
  else if s = "float64" ∨ s = "double" then .ok .float64
  else .error (.runtimeError ("unknown dtype: " ++ s))

inductive Num where
  | int (n : Int)
  | dbl (d : Double)

-- The operations the kernels apply at an element type; `ofNum` is `static_cast` to it. Integer
-- arithmetic wraps, an integer that cannot hold a floating value is undefined.
class Elem (α : Type) extends Add α, Sub α, Mul α, Neg α where
  lt : α → α → Bool
  eq : α → α → Bool
  toNum : α → Num
  ofNum : Num → Except Exn α

namespace Elem

variable {α : Type} [Elem α]

def le (x y : α) : Bool := lt x y || eq x y

def toDouble (x : α) : Double :=
  match toNum x with
  | .int n => .num n
  | .dbl d => d

def ofDouble (d : Double) : Except Exn α := ofNum (.dbl d)

end Elem

def castUndefined : Exn := .undefined "floating value does not fit the integer type"

instance : Elem Int32 where
  lt := fun x y => x < y
  eq := fun x y => x = y
  toNum := fun x => .int x.toInt
  ofNum
    | .int n => .ok (Int32.ofInt n)
    | .dbl d =>
      match d.toInt 32 with
      | some n => .ok (Int32.ofInt n)
      | none => .error castUndefined

instance : Elem Int64 where
  lt := fun x y => x < y
  eq := fun x y => x = y
  toNum := fun x => .int x.toInt
  ofNum
    | .int n => .ok (Int64.ofInt n)
    | .dbl d =>
      match d.toInt 64 with
      | some n => .ok (Int64.ofInt n)
      | none => .error castUndefined

instance : Elem Double where
  lt := Double.lt
  eq := Double.eq
  toNum := .dbl
  ofNum
    | .int n => .ok (.num n)
    | .dbl d => .ok d

@[reducible] def ScalarType.Carrier : ScalarType → Type
  | .int32 => Int32
  | .int64 => Int64
  | .float32 => Double
  | .float64 => Double

instance : (t : ScalarType) → Elem t.Carrier
  | .int32 => inferInstanceAs (Elem Int32)
  | .int64 => inferInstanceAs (Elem Int64)
  | .float32 => inferInstanceAs (Elem Double)
  | .float64 => inferInstanceAs (Elem Double)

instance : (t : ScalarType) → DecidableEq t.Carrier
  | .int32 => inferInstanceAs (DecidableEq Int32)
  | .int64 => inferInstanceAs (DecidableEq Int64)
  | .float32 => inferInstanceAs (DecidableEq Double)
  | .float64 => inferInstanceAs (DecidableEq Double)

structure BlockQ8 where
  d : Double
  qs : List Int
  deriving DecidableEq

inductive Tensor where
  | scalar (t : ScalarType) (data : List t.Carrier)
  | q8_0 (size : Nat) (blocks : List BlockQ8)
  deriving DecidableEq

namespace Tensor

def empty : Tensor := .scalar .float64 []

def dtype : Tensor → DType
  | scalar t _ => .scalar t
  | q8_0 _ _ => .q8_0

def size : Tensor → Nat
  | scalar _ data => data.length
  | q8_0 n _ => n

-- The buffer read at another element type: undefined as soon as an element is read.
def dataAs (t : ScalarType) : Tensor → Except Exn (List t.Carrier)
  | scalar t' data =>
    if h : t' = t then .ok (h ▸ data)
    else if data = [] then .ok []
    else .error (.undefined "element read at another type")
  | q8_0 n _ => if n = 0 then .ok [] else .error (.undefined "element read at another type")

@[simp] theorem dataAs_scalar (t : ScalarType) (data : List t.Carrier) :
    dataAs t (.scalar t data) = .ok data := by
  simp [dataAs]

theorem dataAs_ne {t t' : ScalarType} (h : t' ≠ t) (data : List t'.Carrier) :
    dataAs t (.scalar t' data) =
      if data = [] then .ok [] else .error (.undefined "element read at another type") := by
  simp [dataAs, h]

def q8BlockSize : Nat := 32

def numBlocks (n : Nat) : Nat := (n + q8BlockSize - 1) / q8BlockSize

def fabs (d : Double) : Double := if d.lt 0 then -d else d

def fmax (a b : Double) : Double := if a.lt b then b else a

def fmin (a b : Double) : Double := if b.lt a then b else a

def quantizeBlock (xs : List Double) : Except Exn BlockQ8 := do
  let amax := xs.foldl (fun m x => fmax m (fabs x)) 0
  let d := amax / 127
  let qs ← xs.mapM fun x =>
    let q := if d.eq 0 then 0 else x / d
    match (fmax (-127) (fmin 127 q)).toInt 8 with
    | some n => Except.ok n
    | none => Except.error castUndefined
  .ok ⟨if d.eq 0 then 0 else d, qs ++ List.replicate (q8BlockSize - xs.length) 0⟩

def quantizeQ8 (data : List Double) : Except Exn Tensor := do
  let blocks ← (List.range (numBlocks data.length)).mapM fun b =>
    quantizeBlock ((data.drop (b * q8BlockSize)).take q8BlockSize)
  .ok (.q8_0 data.length blocks)

def quantizeQ8_0 : Tensor → Except Exn Tensor
  | scalar .float32 data => quantizeQ8 data
  | scalar .float64 data => quantizeQ8 data
  | _ => .error (.runtimeError "quantize_q8_0: input must be a float tensor")

def dequantizeBlocks (n : Nat) (blocks : List BlockQ8) : List Double :=
  (blocks.zipIdx.take (numBlocks n)).flatMap fun (blk, b) =>
    (blk.qs.take (min q8BlockSize (n - b * q8BlockSize))).map fun (q : Int) => Double.num q * blk.d

def dequantize : Tensor → Except Exn Tensor
  | q8_0 n blocks => .ok (.scalar .float64 (dequantizeBlocks n blocks))
  | _ => .error (.runtimeError "dequantize: input must be a kQ8_0 tensor")

def dotBlock (n b : Nat) (x y : BlockQ8) : Double :=
  let cnt := min q8BlockSize (n - b * q8BlockSize)
  let s := (List.zipWith (fun p q => Int32.ofInt p * Int32.ofInt q) (x.qs.take cnt)
    (y.qs.take cnt)).foldl (· + ·) 0
  x.d * y.d * Double.num s.toInt

def dotQ8_0 : Tensor → Tensor → Except Exn Double
  | q8_0 n xs, q8_0 m ys =>
    if n ≠ m then .error (.runtimeError "dot_q8_0: length mismatch")
    else .ok <| ((List.zip xs ys).zipIdx.take (numBlocks n)).foldl
      (fun acc blk => acc + dotBlock n blk.2 blk.1.1 blk.1.2) 0
  | _, _ => .error (.runtimeError "dot_q8_0: both operands must be kQ8_0")

def full (n : Nat) (value : Double) : DType → Except Exn Tensor
  | .scalar t => do
    let v ← Elem.ofDouble value
    .ok (.scalar t (List.replicate n v))
  | .q8_0 => .error (.runtimeError "Tensor::full: unsupported dtype")

end Tensor

end Lark.Column
