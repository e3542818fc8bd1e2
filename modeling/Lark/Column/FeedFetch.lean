import Lark.Column.TensorStore

namespace Lark.Column

open Lark.Base

inductive Cell where
  | monostate
  | int64 (v : Int64)
  | double (v : Double)
  deriving DecidableEq

abbrev Row : Type := List Cell

namespace Cell

def isDouble : Cell → Bool
  | double _ => true
  | _ => false

def toInt64 : Cell → Except Exn Int64
  | monostate => .ok 0
  | int64 v => .ok v
  | double v => Elem.ofDouble v

def toDouble : Cell → Double
  | monostate => 0
  | int64 v => .num v.toInt
  | double v => v

end Cell

-- The columns in insertion order.
structure TensorTable where
  entries : List (String × Tensor)
  numRows : Nat
  deriving DecidableEq

namespace TensorTable

def empty : TensorTable := ⟨[], 0⟩

def get? (table : TensorTable) (name : String) : Option Tensor := table.entries.lookup name

def get (table : TensorTable) (name : String) : Except Exn Tensor :=
  match table.get? name with
  | some t => .ok t
  | none => .error (.runtimeError ("Tensor not found: " ++ name))

def add (table : TensorTable) (name : String) (tensor : Tensor) : Except Exn TensorTable :=
  if table.entries ≠ [] ∧ 0 < table.numRows ∧ tensor.size ≠ table.numRows then
    .error (.runtimeError ("Tensor size mismatch: expected " ++ toString table.numRows ++ ", got " ++
      toString tensor.size))
  else if (table.get? name).isSome then
    .ok ⟨table.entries.map fun e => if e.1 = name then (name, tensor) else e, tensor.size⟩
  else .ok ⟨table.entries ++ [(name, tensor)], tensor.size⟩

end TensorTable

def anyDouble (rows : List Row) (c : Nat) : Except Exn Bool :=
  rows.foldlM (fun found row =>
    match row[c]? with
    | none => .error (.runtimeError "feed_table: row has fewer cells than columns")
    | some cell => .ok (found || cell.isDouble)) false

def feedColumn (rows : List Row) (c : Nat) : Except Exn Tensor := do
  let found ← anyDouble rows c
  let cells := rows.map fun row => row.getD c .monostate
  if found then .ok (.scalar .float64 (cells.map Cell.toDouble))
  else do
    let data ← cells.mapM Cell.toInt64
    .ok (.scalar .int64 data)

def feedTable (names : List String) (rows : List Row) : Except Exn TensorTable :=
  names.zipIdx.foldlM (fun table p => do table.add p.1 (← feedColumn rows p.2)) .empty

namespace TensorStore

def addTable (s : TensorStore) (table : TensorTable) : TensorStore :=
  table.entries.foldl (fun store entry => store.set entry.1 entry.2) s

-- `rows` is the length of the first column, once there is one.
def toTable (s : TensorStore) (names : List String) : Except Exn TensorTable := do
  let (table, _) ← names.foldlM (fun (acc : TensorTable × Option Nat) name =>
    match s.find name with
    | none => .error (.outOfRange ("TensorStore::to_table: unknown tensor '" ++ name ++ "'"))
    | some t =>
      if acc.2.any (· ≠ t.size) then
        .error (.runtimeError ("TensorStore::to_table: length mismatch for column '" ++ name ++ "'"))
      else do
        let table ← acc.1.add name t
        .ok (table, some (acc.2.getD t.size))) (.empty, none)
  .ok table

end TensorStore

def toCells : Tensor → Except Exn (List Cell)
  | .scalar .int32 data => .ok (data.map fun (x : Int32) => .int64 (Int64.ofInt x.toInt))
  | .scalar .int64 data => .ok (data.map .int64)
  | .scalar .float32 data => .ok (data.map .double)
  | .scalar .float64 data => .ok (data.map .double)
  | .q8_0 n _ => if n = 0 then .ok [] else .error (.undefined "element read at another type")

def fetchRows (table : TensorTable) (names : List String) : Except Exn (List Row) :=
  match names with
  | [] => .ok []
  | first :: _ => do
    let rows := (← table.get first).size
    names.forM fun name =>
      match table.get? name with
      | none => .error (.runtimeError ("fetch_rows: unknown column '" ++ name ++ "'"))
      | some t =>
        if t.size ≠ rows then
          .error (.runtimeError ("fetch_rows: column '" ++ name ++ "' length mismatch"))
        else .ok ()
    let columns ← names.mapM fun name => do toCells (← table.get name)
    .ok ((List.range rows).map fun r => columns.map fun col => col.getD r .monostate)

end Lark.Column
