import Lark.Base.Strides
import Lark.Column.Compute.Kernels

namespace Lark.Column.Compute

open Lark.Base Lark.Column.Exec

-- Cells behind a pointer, with the indices touched so far in their order.
structure Buffer (α : Type) where
  cells : List α
  touched : List Nat
  deriving DecidableEq

namespace Buffer

variable {α : Type}

def ofList (cells : List α) : Buffer α := ⟨cells, []⟩

-- The storage of `Tensor result(dtype, n)` is filled with zero bytes.
def result (α : Type) [OfNat α 0] (n : Nat) : Buffer α := ofList (List.replicate n 0)

-- An access past the end is undefined.
def load (i : Nat) (b : Buffer α) : Option (α × Buffer α) := do
  let x ← b.cells[i]?
  some (x, ⟨b.cells, b.touched ++ [i]⟩)

def store (i : Nat) (x : α) (b : Buffer α) : Option (Buffer α) :=
  if i < b.cells.length then some ⟨b.cells.set i x, b.touched ++ [i]⟩ else none

def swept (cells : List α) (i : Nat) : Buffer α := ⟨cells, List.range i⟩

theorem load_swept (cells : List α) {i : Nat} (h : i < cells.length) :
    load i (swept cells i) = some (cells[i], swept cells (i + 1)) := by
  rw [load, swept, List.getElem?_eq_getElem h, swept, List.range_succ]
  rfl

theorem readBoth_swept {β : Type} (pa : List α) (pb : List β) {i : Nat}
    (h : i < (pa.zip pb).length) :
    readBoth load load i (swept pa i, swept pb i) =
      some ((pa.zip pb)[i], swept pa (i + 1), swept pb (i + 1)) := by
  have hlen : i < pa.length ∧ i < pb.length := by simpa using h
  rw [readBoth, load_swept pa hlen.1, List.getElem_zip]
  exact congrArg (Option.bind · _) (load_swept pb hlen.2)

variable [OfNat α 0]

def filled (cells : List α) (i : Nat) : Buffer α :=
  swept (cells.take i ++ List.replicate (cells.length - i) 0) i

theorem store_filled (cells : List α) {i : Nat} (h : i < cells.length) :
    store i cells[i] (filled cells i) = some (filled cells (i + 1)) := by
  have hlen : i < (cells.take i ++ List.replicate (cells.length - i) 0).length := by
    simp
    omega
  have hset : (cells.take i ++ List.replicate (cells.length - i) 0).set i cells[i] =
      cells.take (i + 1) ++ List.replicate (cells.length - (i + 1)) 0 := by
    have hrest : cells.length - i = cells.length - (i + 1) + 1 := by omega
    have htake : (cells.take i).length = i := List.length_take_of_le h.le
    rw [List.set_append_right _ _ htake.le, htake, Nat.sub_self, hrest, List.replicate_succ,
      List.set_cons_zero, List.take_add_one, List.getElem?_eq_getElem h, List.append_assoc]
    rfl
  rw [store, filled, swept, if_pos hlen, hset, filled, swept, List.range_succ]

theorem filled_zero (cells : List α) : filled cells 0 = result α cells.length := rfl

theorem filled_length (cells : List α) : filled cells cells.length = swept cells cells.length := by
  simp [filled]

theorem sequential_transfer {β σ : Type} {read : Nat → σ → Option (β × σ)} {R : Nat → σ}
    {xs : List β} (h : ∀ i (hi : i < xs.length), read i (R i) = some (xs[i], R (i + 1)))
    (f : β → α) :
    sequential xs.length (transfer read f store) (R 0, result α xs.length) =
      some (R xs.length, swept (xs.map f) xs.length) := by
  have hlen : (xs.map f).length = xs.length := List.length_map f
  have hstep : ∀ i s, i < xs.length → s = (R i, filled (xs.map f) i) →
      ∃ s', transfer read f store i s = some s' ∧ s' = (R (i + 1), filled (xs.map f) (i + 1)) := by
    rintro i s hi rfl
    refine ⟨_, ?_, rfl⟩
    have hstore := store_filled (xs.map f) (hlen.symm ▸ hi)
    rw [List.getElem_map] at hstore
    rw [transfer, h i hi]
    simp [hstore]
  obtain ⟨s, hrun, rfl⟩ := sequential_rule (P := fun i s => s = (R i, filled (xs.map f) i)) rfl
    hstep
  rw [filled_zero, hlen] at hrun
  rw [hrun, ← hlen, filled_length]

end Buffer

instance (simd : Simd) : NeZero simd.lanes where
  out := by cases simd <;> decide

-- The builds with a loop over registers: all but one do arithmetic by registers, only NEON
-- compares by them.
def Simd.hasRegisters : Simd → Bool
  | scalar => false
  | _ => true

def Simd.hasMasks : Simd → Bool
  | neon => true
  | _ => false

-- `lane` is the body of the tail loop and of the scalar fallback.
structure UnaryKernel (β : Type) where
  vectorizes : Simd → Bool
  register : Simd → {w : Nat} → List.Vector Double w → List.Vector β w
  lane : Double → β

structure BinaryKernel (β : Type) where
  vectorizes : Simd → Bool
  register : Simd → {w : Nat} → List.Vector Double w → List.Vector Double w → List.Vector β w
  lane : Double → Double → β

variable {β : Type}

namespace UnaryKernel

variable (k : UnaryKernel β) (simd : Simd)

def laneStep : Nat → Buffer Double × Buffer β → Option (Buffer Double × Buffer β) :=
  transfer Buffer.load k.lane Buffer.store

def registerStep (i : Nat) (s : Buffer Double × Buffer β) :
    Option (Buffer Double × Buffer β) := do
  let va ← gather Buffer.load simd.lanes i s.1
  let pr ← scatter Buffer.store simd.lanes i (k.register simd va.1) s.2
  some (va.2, pr)

def Lanewise : Prop :=
  ∀ simd w (va : List.Vector Double w), k.register simd va = va.map k.lane

theorem registerStep_eq_lanes {k : UnaryKernel β} (h : k.Lanewise) (i : Nat)
    (s : Buffer Double × Buffer β) :
    k.registerStep simd i s = lanes k.laneStep simd.lanes i s := by
  rw [laneStep, lanes_transfer, registerStep]
  simp only [h simd]

variable [OfNat β 0]

def run (pa : List Double) : Option (Buffer Double × Buffer β) :=
  let s := (Buffer.ofList pa, Buffer.result β pa.length)
  if k.vectorizes simd then vectorized simd.lanes pa.length (k.registerStep simd) k.laneStep s
  else sequential pa.length k.laneStep s

def Agrees : Prop :=
  ∀ pa, k.run simd pa = k.run .scalar pa ∧
    k.run simd pa = some (⟨pa, List.range pa.length⟩, ⟨pa.map k.lane, List.range pa.length⟩)

variable {k}

theorem run_eq_sequential (h : k.Lanewise) (pa : List Double) :
    k.run simd pa =
      sequential pa.length k.laneStep (Buffer.ofList pa, Buffer.result β pa.length) :=
  ite_vectorized (registerStep_eq_lanes simd h) _ _

theorem run_eq (h : k.Lanewise) (pa : List Double) :
    k.run simd pa =
      some (⟨pa, List.range pa.length⟩, ⟨pa.map k.lane, List.range pa.length⟩) := by
  rw [run_eq_sequential simd h]
  exact Buffer.sequential_transfer (R := Buffer.swept pa) (fun i hi => Buffer.load_swept pa hi)
    k.lane

theorem Lanewise.agrees (h : k.Lanewise) : k.Agrees simd :=
  fun pa => ⟨(run_eq_sequential simd h pa).trans (run_eq_sequential .scalar h pa).symm,
    run_eq simd h pa⟩

end UnaryKernel

namespace BinaryKernel

variable (k : BinaryKernel β) (simd : Simd)

abbrev State (β : Type) := (Buffer Double × Buffer Double) × Buffer β

def laneStep : Nat → State β → Option (State β) :=
  transfer (readBoth Buffer.load Buffer.load) (fun p => k.lane p.1 p.2) Buffer.store

def registerStep (i : Nat) (s : State β) : Option (State β) := do
  let va ← gather Buffer.load simd.lanes i s.1.1
  let vb ← gather Buffer.load simd.lanes i s.1.2
  let pr ← scatter Buffer.store simd.lanes i (k.register simd va.1 vb.1) s.2
  some ((va.2, vb.2), pr)

def Lanewise : Prop :=
  ∀ simd w (va vb : List.Vector Double w),
    k.register simd va vb = List.Vector.zipWith k.lane va vb

theorem map_zip (f : Double → Double → β) {w : Nat} (va vb : List.Vector Double w) :
    (List.Vector.zipWith Prod.mk va vb).map (fun p => f p.1 p.2) =
      List.Vector.zipWith f va vb := by
  apply List.Vector.toList_injective
  simp [List.Vector.zipWith_toList, List.map_zipWith]

theorem registerStep_eq_lanes {k : BinaryKernel β} (h : k.Lanewise) (i : Nat) (s : State β) :
    k.registerStep simd i s = lanes k.laneStep simd.lanes i s := by
  rw [laneStep, lanes_transfer, registerStep, gather_readBoth]
  simp [h simd, map_zip, Option.bind_assoc]

variable [OfNat β 0]

-- The loops run over the first operand's size; nothing compares it with the second's.
def run (pa pb : List Double) : Option (State β) :=
  let s := ((Buffer.ofList pa, Buffer.ofList pb), Buffer.result β pa.length)
  if k.vectorizes simd then vectorized simd.lanes pa.length (k.registerStep simd) k.laneStep s
  else sequential pa.length k.laneStep s

def Agrees : Prop :=
  ∀ pa pb, k.run simd pa pb = k.run .scalar pa pb ∧
    (pa.length ≤ pb.length → k.run simd pa pb =
      some ((⟨pa, List.range pa.length⟩, ⟨pb, List.range pa.length⟩),
        ⟨List.zipWith k.lane pa pb, List.range pa.length⟩))

variable {k}

theorem run_eq_sequential (h : k.Lanewise) (pa pb : List Double) :
    k.run simd pa pb = sequential pa.length k.laneStep
      ((Buffer.ofList pa, Buffer.ofList pb), Buffer.result β pa.length) :=
  ite_vectorized (registerStep_eq_lanes simd h) _ _

theorem run_eq (h : k.Lanewise) {pa pb : List Double} (hlen : pa.length ≤ pb.length) :
    k.run simd pa pb = some ((⟨pa, List.range pa.length⟩, ⟨pb, List.range pa.length⟩),
      ⟨List.zipWith k.lane pa pb, List.range pa.length⟩) := by
  have hzip : (pa.zip pb).length = pa.length := List.length_zip.trans (min_eq_left hlen)
  have hrun := Buffer.sequential_transfer (R := fun i => (Buffer.swept pa i, Buffer.swept pb i))
    (fun i hi => Buffer.readBoth_swept pa pb hi) fun p => k.lane p.1 p.2
  rw [hzip, List.map_zip_eq_zipWith] at hrun
  rw [run_eq_sequential simd h]
  exact hrun

theorem Lanewise.agrees (h : k.Lanewise) : k.Agrees simd :=
  fun pa pb => ⟨(run_eq_sequential simd h pa pb).trans (run_eq_sequential .scalar h pa pb).symm,
    run_eq simd h⟩

end BinaryKernel

namespace F64

-- Four of the kernels differ by the instruction only, the same for every build.
def arithmetic (op : Double → Double → Double) : BinaryKernel Double where
  vectorizes := Simd.hasRegisters
  register := fun _ _ va vb => List.Vector.zipWith op va vb
  lane := op

def add : BinaryKernel Double := arithmetic (· + ·)

def sub : BinaryKernel Double := arithmetic (· - ·)

def mul : BinaryKernel Double := arithmetic (· * ·)

def div : BinaryKernel Double := arithmetic (· / ·)

-- The scalar is broadcast to a register before the loop.
def arithmeticScalar (op : Double → Double → Double) (v : Double) : UnaryKernel Double where
  vectorizes := Simd.hasRegisters
  register := fun _ w va => List.Vector.zipWith op va (List.Vector.replicate w v)
  lane := fun x => op x v

def addScalar : Double → UnaryKernel Double := arithmeticScalar (· + ·)

def subScalar : Double → UnaryKernel Double := arithmeticScalar (· - ·)

def mulScalar : Double → UnaryKernel Double := arithmeticScalar (· * ·)

def divScalar : Double → UnaryKernel Double := arithmeticScalar (· / ·)

-- NEON has a negation, the x86 builds subtract from a register of zeros.
def neg : UnaryKernel Double where
  vectorizes := Simd.hasRegisters
  register := fun simd w va =>
    match simd with
    | .neon => va.map (-·)
    | _ => List.Vector.zipWith (· - ·) (List.Vector.replicate w 0) va
  lane := fun x => -x

-- `std::fabs`, and what is left of a double under the mask 0x7FFFFFFFFFFFFFFF.
def fabs : Double → Double
  | .num q => .num |q|
  | .inf _ => .inf false
  | .nan => .nan

def abs : UnaryKernel Double where
  vectorizes := Simd.hasRegisters
  register := fun _ _ va => va.map fabs
  lane := fabs

def square : UnaryKernel Double where
  vectorizes := Simd.hasRegisters
  register := fun _ _ va => List.Vector.zipWith (· * ·) va va
  lane := fun x => x * x

-- A NEON comparison sets all bits of a lane or none.
def maskLane (b : Bool) : UInt64 := if b then 0xFFFFFFFFFFFFFFFF else 0

def masks (op : CmpOp) {w : Nat} (va vb : List.Vector Double w) : List.Vector UInt64 w :=
  List.Vector.zipWith (fun x y => maskLane (op.apply x y)) va vb

def normalize {w : Nat} (mask : List.Vector UInt64 w) : List.Vector Int64 w :=
  List.Vector.zipWith (· &&& ·) (mask.map UInt64.toInt64) (List.Vector.replicate w 1)

def comparison (op : CmpOp) : BinaryKernel Int64 where
  vectorizes := Simd.hasMasks
  register := fun _ _ va vb => normalize (masks op va vb)
  lane := fun x y => maskOf (op.apply x y)

def gt : BinaryKernel Int64 := comparison .gt

def lt : BinaryKernel Int64 := comparison .lt

def ge : BinaryKernel Int64 := comparison .ge

def le : BinaryKernel Int64 := comparison .le

def eq : BinaryKernel Int64 := comparison .eq

def comparisonScalar (op : CmpOp) (v : Double) : UnaryKernel Int64 where
  vectorizes := Simd.hasMasks
  register := fun _ w va => normalize (masks op va (List.Vector.replicate w v))
  lane := fun x => maskOf (op.apply x v)

def gtScalar : Double → UnaryKernel Int64 := comparisonScalar .gt

def ltScalar : Double → UnaryKernel Int64 := comparisonScalar .lt

def geScalar : Double → UnaryKernel Int64 := comparisonScalar .ge

def leScalar : Double → UnaryKernel Int64 := comparisonScalar .le

def eqScalar : Double → UnaryKernel Int64 := comparisonScalar .eq

section Lanewise

variable {α γ : Type} {w : Nat}

theorem zipWith_replicate (f : α → α → γ) (va : List.Vector α w) (v : α) :
    List.Vector.zipWith f va (List.Vector.replicate w v) = va.map fun x => f x v := by
  ext i
  rw [List.Vector.zipWith_get, List.Vector.get_map, List.Vector.get_replicate]

theorem replicate_zipWith (f : α → α → γ) (v : α) (vb : List.Vector α w) :
    List.Vector.zipWith f (List.Vector.replicate w v) vb = vb.map (f v) := by
  ext i
  rw [List.Vector.zipWith_get, List.Vector.get_map, List.Vector.get_replicate]

theorem zipWith_self (f : α → α → γ) (va : List.Vector α w) :
    List.Vector.zipWith f va va = va.map fun x => f x x := by
  ext i
  rw [List.Vector.zipWith_get, List.Vector.get_map]

theorem maskLane_and_one (b : Bool) : (maskLane b).toInt64 &&& 1 = maskOf b := by
  cases b <;> decide

theorem normalize_masks (op : CmpOp) (va vb : List.Vector Double w) :
    normalize (masks op va vb) = List.Vector.zipWith (fun x y => maskOf (op.apply x y)) va vb := by
  ext i
  rw [normalize, zipWith_replicate, masks, List.Vector.get_map, List.Vector.get_map,
    List.Vector.zipWith_get, maskLane_and_one, List.Vector.zipWith_get]

theorem arithmetic_lanewise (op : Double → Double → Double) : (arithmetic op).Lanewise :=
  fun _ _ _ _ => rfl

theorem arithmeticScalar_lanewise (op : Double → Double → Double) (v : Double) :
    (arithmeticScalar op v).Lanewise :=
  fun _ _ va => zipWith_replicate op va v

theorem neg_lanewise : neg.Lanewise := by
  have hzero : ∀ w (va : List.Vector Double w),
      List.Vector.zipWith (· - ·) (List.Vector.replicate w 0) va = va.map (-·) := by
    intro w va
    rw [replicate_zipWith]
    simp only [Double.zero_sub]
  intro simd w va
  cases simd with
  | neon => rfl
  | _ => exact hzero w va

theorem abs_lanewise : abs.Lanewise := fun _ _ _ => rfl

theorem square_lanewise : square.Lanewise := fun _ _ va => zipWith_self _ va

theorem comparison_lanewise (op : CmpOp) : (comparison op).Lanewise :=
  fun _ _ va vb => normalize_masks op va vb

theorem comparisonScalar_lanewise (op : CmpOp) (v : Double) :
    (comparisonScalar op v).Lanewise :=
  fun _ _ va => (normalize_masks op va _).trans (zipWith_replicate _ va v)

end Lanewise

-- `hsum_f64` of each build: across two lanes, after laying the halves of a wider register over
-- each other.
def hsum2 (v : List.Vector Double 2) : Double := v.head + v.tail.head

def hsum4 (v : List.Vector Double 4) : Double := hsum2 (halve (· + ·) v)

def hsum8 (v : List.Vector Double 8) : Double := hsum4 (halve (· + ·) v)

def sumLane : Nat → Double × Buffer Double → Option (Double × Buffer Double) :=
  absorb Buffer.load (· + ·)

def sumRegister (w i : Nat) (s : List.Vector Double w × Buffer Double) :
    Option (List.Vector Double w × Buffer Double) := do
  let v ← gather Buffer.load w i s.2
  some (List.Vector.zipWith (· + ·) s.1 v.1, v.2)

def sumVector (simd : Simd) (hsum : List.Vector Double simd.lanes → Double) (p : List Double) :
    Option (Double × Buffer Double) := do
  let r ← strided simd.lanes p.length (sumRegister simd.lanes) 0
    (List.Vector.replicate simd.lanes 0, Buffer.ofList p)
  let s := hsum r.2.1
  tail p.length sumLane r.1 (s, r.2.2)

def sum : Simd → List Double → Option (Double × Buffer Double)
  | .neon, p => sumVector .neon hsum2 p
  | .avx512, p => sumVector .avx512 hsum8 p
  | .avx2, p => sumVector .avx2 hsum4 p
  | .sse2, p => sumVector .sse2 hsum2 p
  | .scalar, p => sequential p.length sumLane (0, Buffer.ofList p)

section Sum

variable {w : Nat}

def total (v : List.Vector Double w) : Double := v.toList.foldl (· + ·) 0

theorem hsum2_eq_total : (v : List.Vector Double 2) → hsum2 v = total v
  | ⟨[x, y], _⟩ => congrArg (· + y) x.zero_add.symm

theorem hsum4_eq_total (v : List.Vector Double 4) : hsum4 v = total v :=
  (hsum2_eq_total _).trans (foldl_halve (w := 2) v 0)

theorem hsum8_eq_total (v : List.Vector Double 8) : hsum8 v = total v :=
  (hsum4_eq_total _).trans (foldl_halve (w := 4) v 0)

theorem total_zeros : total (List.Vector.replicate w 0) = 0 := by
  have hfold : ∀ k, (List.replicate k (0 : Double)).foldl (· + ·) 0 = 0 := by
    intro k
    induction k with
    | zero => rfl
    | succ k ih => rw [List.replicate_succ, List.foldl_cons, Double.zero_add, ih]
  exact hfold w

theorem total_sumRegister (i : Nat) (s : List.Vector Double w × Buffer Double) :
    lanes sumLane w i (Prod.map total id s) = Prod.map total id <$> sumRegister w i s := by
  obtain ⟨acc, b⟩ := s
  rw [Prod.map_apply, sumLane, lanes_absorb, sumRegister, id_eq]
  cases gather Buffer.load w i b with
  | none => rfl
  | some v =>
    have hfold : v.1.toList.foldl (· + ·) (total acc) =
        total (List.Vector.zipWith (· + ·) acc v.1) := (foldl_zipWith_vector acc v.1 0).symm
    exact congrArg (fun t => some (t, v.2)) hfold

theorem sumVector_eq_sequential (simd : Simd) {hsum : List.Vector Double simd.lanes → Double}
    (h : ∀ v, hsum v = total v) (p : List Double) :
    sumVector simd hsum p = sequential p.length sumLane (0, Buffer.ofList p) := by
  have hmap : strided simd.lanes p.length (lanes sumLane simd.lanes) 0 (0, Buffer.ofList p) =
      Prod.map id (Prod.map total id) <$> strided simd.lanes p.length (sumRegister simd.lanes) 0
        (List.Vector.replicate simd.lanes 0, Buffer.ofList p) := by
    rw [← strided_map total_sumRegister, Prod.map_apply, total_zeros, id_eq]
  have hplain : vectorized simd.lanes p.length (lanes sumLane simd.lanes) sumLane
      (0, Buffer.ofList p) = sequential p.length sumLane (0, Buffer.ofList p) :=
    vectorized_eq_sequential (fun _ _ => rfl) _
  rw [← hplain, vectorized, hmap, sumVector, bind_map_left]
  refine bind_congr fun r => ?_
  rw [h]
  rfl

theorem sum_eq_sequential (simd : Simd) (p : List Double) :
    sum simd p = sequential p.length sumLane (0, Buffer.ofList p) := by
  cases simd with
  | neon => exact sumVector_eq_sequential .neon hsum2_eq_total p
  | avx512 => exact sumVector_eq_sequential .avx512 hsum8_eq_total p
  | avx2 => exact sumVector_eq_sequential .avx2 hsum4_eq_total p
  | sse2 => exact sumVector_eq_sequential .sse2 hsum2_eq_total p
  | scalar => rfl

theorem sum_eq (simd : Simd) (p : List Double) :
    sum simd p = some (p.foldl (· + ·) 0, ⟨p, List.range p.length⟩) := by
  have hstep : ∀ i s, i < p.length → s = ((p.take i).foldl (· + ·) 0, Buffer.swept p i) →
      ∃ s', sumLane i s = some s' ∧
        s' = ((p.take (i + 1)).foldl (· + ·) 0, Buffer.swept p (i + 1)) := by
    rintro i s hi rfl
    refine ⟨_, ?_, rfl⟩
    rw [sumLane, absorb, Buffer.load_swept p hi, List.take_add_one,
      List.getElem?_eq_getElem hi, List.foldl_append]
    rfl
  obtain ⟨s, hrun, rfl⟩ := sequential_rule
    (P := fun i s => s = ((p.take i).foldl (· + ·) 0, Buffer.swept p i)) rfl hstep
  rw [sum_eq_sequential]
  rw [List.take_length] at hrun
  exact hrun

end Sum

end F64

section Tensors

variable {xs ys : List Double} (simd : Simd)

def stored (t : ScalarType) (r : Option (BinaryKernel.State t.Carrier)) : Option Tensor :=
  r.map fun s => .scalar t s.2.cells

def Function.loops (pa pb : List Double) : Function → Option Tensor
  | add => stored .float64 (F64.add.run simd pa pb)
  | sub => stored .float64 (F64.sub.run simd pa pb)
  | mul => stored .float64 (F64.mul.run simd pa pb)
  | div => stored .float64 (F64.div.run simd pa pb)
  | gt => stored .int64 (F64.gt.run simd pa pb)
  | ge => stored .int64 (F64.ge.run simd pa pb)
  | lt => stored .int64 (F64.lt.run simd pa pb)
  | le => stored .int64 (F64.le.run simd pa pb)
  | eq => stored .int64 (F64.eq.run simd pa pb)

theorem stored_arithmetic (op : Double → Double → Double) (h : xs.length = ys.length) :
    stored .float64 ((F64.arithmetic op).run simd xs ys) =
      some (.scalar .float64 (List.zipWith op xs ys)) :=
  congrArg (stored .float64) (BinaryKernel.run_eq simd (F64.arithmetic_lanewise op) h.le)

theorem stored_comparison (op : CmpOp) (h : xs.length = ys.length) :
    stored .int64 ((F64.comparison op).run simd xs ys) =
      some (.scalar .int64 (List.zipWith (fun x y => maskOf (op.apply x y)) xs ys)) :=
  congrArg (stored .int64) (BinaryKernel.run_eq simd (F64.comparison_lanewise op) h.le)

theorem loops_eq_apply (f : Function) (h : xs.length = ys.length) :
    f.loops simd xs ys = (f.apply simd (.scalar .float64 xs) (.scalar .float64 ys)).toOption := by
  have harith : ∀ name int op, stored .float64 ((F64.arithmetic op).run simd xs ys) =
      (arith ⟨name, int, op⟩ simd (.scalar .float64 xs) (.scalar .float64 ys)).toOption := by
    intro name int op
    rw [stored_arithmetic simd op h, arith_float64 _ simd h]
    rfl
  have hcompare : ∀ op, stored .int64 ((F64.comparison op).run simd xs ys) =
      (compareTT op simd (.scalar .float64 xs) (.scalar .float64 ys)).toOption := by
    intro op
    rw [stored_comparison simd op h, compareTT_float64 op simd h]
    rfl
  cases f with
  | add => exact harith _ _ _
  | sub => exact harith _ _ _
  | mul => exact harith _ _ _
  | div =>
    refine (stored_arithmetic simd (· / ·) h).trans ?_
    exact (congrArg Except.toOption (div_float64 simd h)).symm
  | _ => exact hcompare _

theorem sum_eq_tensorSum (p : List Double) :
    (F64.sum simd p).map Prod.fst = (tensorSum (.scalar .float64 p)).toOption := by
  rw [F64.sum_eq]
  rfl

end Tensors

theorem vector_loops_agree (simd : Simd) :
    (F64.add.Agrees simd ∧ F64.sub.Agrees simd ∧ F64.mul.Agrees simd ∧ F64.div.Agrees simd) ∧
      (∀ v, (F64.addScalar v).Agrees simd ∧ (F64.subScalar v).Agrees simd ∧
        (F64.mulScalar v).Agrees simd ∧ (F64.divScalar v).Agrees simd) ∧
      (F64.neg.Agrees simd ∧ F64.abs.Agrees simd ∧ F64.square.Agrees simd) ∧
      (F64.gt.Agrees simd ∧ F64.lt.Agrees simd ∧ F64.ge.Agrees simd ∧ F64.le.Agrees simd ∧
        F64.eq.Agrees simd) ∧
      (∀ v, (F64.gtScalar v).Agrees simd ∧ (F64.ltScalar v).Agrees simd ∧
        (F64.geScalar v).Agrees simd ∧ (F64.leScalar v).Agrees simd ∧
        (F64.eqScalar v).Agrees simd) ∧
      ∀ p, F64.sum simd p = F64.sum .scalar p ∧
        F64.sum simd p = some (p.foldl (· + ·) 0, ⟨p, List.range p.length⟩) := by
  have harith : ∀ op, (F64.arithmetic op).Agrees simd :=
    fun op => (F64.arithmetic_lanewise op).agrees simd
  have hscalar : ∀ op v, (F64.arithmeticScalar op v).Agrees simd :=
    fun op v => (F64.arithmeticScalar_lanewise op v).agrees simd
  have hcompare : ∀ op, (F64.comparison op).Agrees simd :=
    fun op => (F64.comparison_lanewise op).agrees simd
  have hcompareScalar : ∀ op v, (F64.comparisonScalar op v).Agrees simd :=
    fun op v => (F64.comparisonScalar_lanewise op v).agrees simd
  refine ⟨⟨harith _, harith _, harith _, harith _⟩,
    fun v => ⟨hscalar _ v, hscalar _ v, hscalar _ v, hscalar _ v⟩,
    ⟨F64.neg_lanewise.agrees simd, F64.abs_lanewise.agrees simd, F64.square_lanewise.agrees simd⟩,
    ⟨hcompare _, hcompare _, hcompare _, hcompare _, hcompare _⟩,
    fun v => ⟨hcompareScalar _ v, hcompareScalar _ v, hcompareScalar _ v, hcompareScalar _ v,
      hcompareScalar _ v⟩, fun p => ⟨?_, F64.sum_eq simd p⟩⟩
  rw [F64.sum_eq_sequential, F64.sum_eq_sequential]

theorem vector_loops_agree_avx2 :
    F64.add.run .avx2 [1, 2, 3, 4, 5] [5, 4, 3, 2, .nan] =
      some ((⟨[1, 2, 3, 4, 5], [0, 1, 2, 3, 4]⟩, ⟨[5, 4, 3, 2, .nan], [0, 1, 2, 3, 4]⟩),
        ⟨[6, 6, 6, 6, .nan], [0, 1, 2, 3, 4]⟩) :=
  (((vector_loops_agree .avx2).1.1 _ _).2 (by decide)).trans (by decide +kernel)

example : F64.sum .avx2 [1, 2, 3, 4, 5] = some (15, ⟨[1, 2, 3, 4, 5], [0, 1, 2, 3, 4]⟩) := by
  decide +kernel

example : F64.gt.run .neon [1, .nan, 3] [0, 0, 4] =
    some ((⟨[1, .nan, 3], [0, 1, 2]⟩, ⟨[0, 0, 4], [0, 1, 2]⟩), ⟨[1, 0, 0], [0, 1, 2]⟩) := by
  decide +kernel

end Lark.Column.Compute
