import Lark.Column.Biz.DslSemantics
import Lark.Column.Exec.Reductions

namespace Lark.Column.Biz.Dsl

open Lark.Base Lark.Toolkit.Dsl Lark.Column.Exec

namespace BinOp

def onTensors : BinOp → Tensor → Tensor → Except Exn Tensor
  | arith op => binaryArith op
  | cmp op => Exec.compare op

def onScalar : BinOp → Double → Tensor → Except Exn Tensor
  | arith op => scalarArith op
  | cmp op => compareScalar op

def onDoubles : BinOp → Double → Double → Tensor
  | arith op, x, y => .scalar .float64 [op.onDoubles x y]
  | cmp op, x, y => .scalar .int64 [maskOf (op.apply x y)]

def Commutes (op : BinOp) : Prop := op ∈ [.arith .add, .arith .mul, .cmp .eq, .cmp .neq]

theorem Commutes.cases {op : BinOp} (h : op.Commutes) :
    op = .arith .add ∨ op = .arith .mul ∨ op = .cmp .eq ∨ op = .cmp .neq := by
  simpa [Commutes] using h

theorem Commutes.ne_div {op : BinOp} (h : op.Commutes) : op ≠ .arith .div := by
  rintro rfl
  simp [Commutes] at h

theorem Commutes.eval {op : BinOp} (h : op.Commutes) (x y : ℚ) : op.eval x y = op.eval y x := by
  have hsymm : decide (x = y) = decide (y = x) := decide_eq_decide.mpr eq_comm
  rcases h.cases with rfl | rfl | rfl | rfl
  · exact add_comm x y
  · exact mul_comm x y
  · change (if decide (x = y) then (1 : ℚ) else 0) = if decide (y = x) then 1 else 0
    rw [hsymm]
  · change (if decide (x ≠ y) then (1 : ℚ) else 0) = if decide (y ≠ x) then 1 else 0
    simp only [ne_comm]

end BinOp

def single (c : ℚ) : Tensor := .scalar .float64 [.num c]

def anyRow : Row := fun _ => 0

abbrev Carries (m : Bool) (c : ℚ) (t : Tensor) : Prop := ColumnOf [anyRow] (fun _ => c) m t

-- A one-row column on which a scalar operand acts as the column that carries the number does.
def Operand (op : BinOp) (m : Bool) (t : Tensor) : Prop :=
  ∃ (u : ScalarType) (z : u.Carrier), t = .scalar u [z] ∧
    (op = .arith .div ∨ u = .float64 ∨ u = .int64 ∧ m = true)

section

variable {op : BinOp} {m m' : Bool} {x y c : ℚ} {a b s t : Tensor}

theorem carries_single (c : ℚ) : Carries false c (single c) := .float

theorem carries_float (h : Carries false c t) : t = single c := by
  cases h
  rfl

theorem carries_readable (h : Carries m c t) : Readable t .float64 [.num c] := by
  cases h with
  | float => exact @readable_same .float64 [Double.num c]
  | mask n hn =>
    obtain ⟨hq, hlo, hhi⟩ := hn anyRow (by simp)
    have hvalue : Elem.toDouble (Int64.ofInt (n anyRow)) = .num c := by
      simp only [Elem.toDouble, Elem.toNum, Int64.toInt_ofInt_of_le hlo hhi, hq]
    rw [← hvalue]
    exact @readable_double .int64 [Int64.ofInt (n anyRow)]

theorem carries_promote (h : Carries m c t) : promote .float64 t.dtype = .float64 ∧
    promote t.dtype .float64 = .float64 := by
  cases h <;> exact ⟨rfl, rfl⟩

theorem onTensors_right {u : ScalarType} (z : u.Carrier) (hs : Carries m c s)
    (hop : op = .arith .div ∨ u = .float64) :
    op.onTensors (.scalar u [z]) s = .ok (op.onDoubles (Elem.toDouble z) (.num c)) := by
  have hsize : (Tensor.scalar u [z]).size = s.size := by
    rw [columnOf_size hs]
    rfl
  have hz : Readable (.scalar u [z]) .float64 [Elem.toDouble z] := readable_double [z]
  have hx := carries_readable hs
  cases op with
  | arith o =>
    have hout : (if o = .div then DType.float64 else promote (.scalar u) s.dtype) =
        .scalar .float64 := by
      split_ifs with ho
      · rfl
      · rcases hop with hop | rfl
        · exact absurd (BinOp.arith.inj hop) ho
        · exact (carries_promote hs).1
    refine (congrArg (elementwiseBinary o.apply (.scalar u [z]) s) hout).trans ?_
    rw [elementwiseBinary_readable o.apply hsize hz hx]
    simp [apply_double, BinOp.onDoubles]
  | cmp o =>
    obtain rfl : u = .float64 := by simpa using hop
    exact compare_readable o hsize (carries_promote hs).1 hz hx

theorem onTensors_left (z : Double) (hs : Carries m c s) :
    op.onTensors s (.scalar .float64 [z]) = .ok (op.onDoubles (.num c) z) := by
  have hsize : s.size = (Tensor.scalar .float64 [z]).size := by
    rw [columnOf_size hs]
    rfl
  have hz : Readable (.scalar .float64 [z]) .float64 [z] := @readable_same .float64 [z]
  have hx := carries_readable hs
  cases op with
  | arith o =>
    have hout : (if o = .div then DType.float64 else promote s.dtype .float64) =
        .scalar .float64 := by
      split_ifs
      · rfl
      · exact (carries_promote hs).2
    refine (congrArg (elementwiseBinary o.apply s (.scalar .float64 [z])) hout).trans ?_
    rw [elementwiseBinary_readable o.apply hsize hx hz]
    simp [apply_double, BinOp.onDoubles]
  | cmp o => exact compare_readable o hsize (carries_promote hs).2 hx hz

theorem onScalar_right {u : ScalarType} (z : u.Carrier) (c : ℚ)
    (hop : op = .arith .div ∨ u = .float64) :
    op.onScalar (.num c) (.scalar u [z]) = .ok (op.onDoubles (Elem.toDouble z) (.num c)) := by
  rcases hop with rfl | rfl
  · exact scalarArith_div [z] c
  · cases op with
    | arith o => exact scalarArith_double o z _
    | cmp o => rfl

theorem onScalar_mask (z : Int64) {n : Int} (hn : FitsInt64 n) (hop : op ≠ .arith .div) :
    op.onScalar (.num n) (.scalar .int64 [z]) =
      op.onTensors (.scalar .int64 [z]) (.scalar .int64 [Int64.ofInt n]) := by
  have hz : Readable (.scalar .int64 [z]) .int64 [z] := @readable_same .int64 [z]
  have hx : Readable (.scalar .int64 [Int64.ofInt n]) .int64 [Int64.ofInt n] :=
    @readable_same .int64 [Int64.ofInt n]
  have hsize : (Tensor.scalar .int64 [z]).size = (Tensor.scalar .int64 [Int64.ofInt n]).size := rfl
  cases op with
  | arith o =>
    have ho : o ≠ .div := fun h => hop (congrArg _ h)
    have hbinary := binaryArith_readable o ho hsize rfl hz hx
    refine Eq.trans ?_ hbinary.symm
    simp only [BinOp.onScalar, scalarArith, ho, if_false, elementwiseScalar, promoteScalar,
      Tensor.dtype, castTensor_self, except_ok_bind, Tensor.dataAs_scalar, ofDouble_int64 hn]
    rfl
  | cmp o =>
    have hbinary := compare_readable o hsize rfl hz hx
    refine Eq.trans ?_ hbinary.symm
    simp only [BinOp.onScalar, compareScalar, ofDouble_int64 hn, except_ok_bind]
    rfl

theorem onScalar_operand (ht : Operand op m t) (hs : Carries m c s) :
    op.onScalar (.num c) t = op.onTensors t s := by
  by_cases hdiv : op = .arith .div
  · obtain ⟨u, z, rfl, -⟩ := ht
    rw [onScalar_right z c (.inl hdiv), onTensors_right z hs (.inl hdiv)]
  · obtain ⟨u, z, rfl, hdiv' | rfl | ⟨rfl, rfl⟩⟩ := ht
    · exact absurd hdiv' hdiv
    · rw [onScalar_right z c (.inr rfl), onTensors_right z hs (.inr rfl)]
    · cases hs with
      | mask n hn =>
        obtain ⟨hq, hfit⟩ := hn anyRow (by simp)
        rw [← hq]
        exact onScalar_mask z hfit hdiv

theorem onDoubles_comm (h : op.Commutes) (x y : Double) : op.onDoubles x y = op.onDoubles y x := by
  rcases h.cases with rfl | rfl | rfl | rfl
  · exact congrArg (fun d => Tensor.scalar .float64 [d]) (Double.add_comm x y)
  · exact congrArg (fun d => Tensor.scalar .float64 [d]) (Double.mul_comm x y)
  · exact congrArg (fun b => Tensor.scalar .int64 [maskOf b]) (Double.eq_comm x y)
  · exact congrArg (fun b => Tensor.scalar .int64 [maskOf !b]) (Double.eq_comm x y)

theorem onTensors_masks_comm (h : op.Commutes) (x y : Int64) :
    op.onTensors (.scalar .int64 [x]) (.scalar .int64 [y]) =
      op.onTensors (.scalar .int64 [y]) (.scalar .int64 [x]) := by
  rcases h.cases with rfl | rfl | rfl | rfl
  · exact congrArg (fun d => Except.ok (Tensor.scalar .int64 [d])) (Int64.add_comm x y)
  · exact congrArg (fun d => Except.ok (Tensor.scalar .int64 [d])) (Int64.mul_comm x y)
  · exact congrArg (fun b => Except.ok (Tensor.scalar .int64 [maskOf b]))
      (decide_eq_decide.mpr eq_comm)
  · exact congrArg (fun b => Except.ok (Tensor.scalar .int64 [maskOf !b]))
      (decide_eq_decide.mpr eq_comm)

theorem onScalar_commutes (h : op.Commutes) (ht : Operand op m t) (hs : Carries m c s) :
    op.onScalar (.num c) t = op.onTensors s t := by
  rw [onScalar_operand ht hs]
  obtain ⟨u, z, rfl, hdiv | rfl | ⟨rfl, rfl⟩⟩ := ht
  · exact absurd hdiv h.ne_div
  · rw [onTensors_right z hs (.inr rfl), onTensors_left z hs, onDoubles_comm h]
    rfl
  · cases hs with
    | mask n hn => exact onTensors_masks_comm h z _

theorem onTensors_carries (ha : Carries m x a) (hb : Carries m' y b)
    (hdiv : op = .arith .div → y ≠ 0)
    (hfit : FitsResult [anyRow] op (m && m') (fun _ => x) fun _ => y) :
    ∃ t, op.onTensors a b = .ok t ∧ Carries (op.isMask (m && m')) (op.eval x y) t := by
  cases op with
  | arith o =>
    obtain ⟨t, ht, hc⟩ := binaryArith_columns o ha hb (fun h _ _ => hdiv (congrArg _ h))
      fun hne hm hm' => hfit o rfl hne (by simp [hm, hm'])
    refine ⟨t, ht, ?_⟩
    simpa [BinOp.isMask, BinOp.eval, Bool.and_assoc] using hc
  | cmp o => exact compare_columns o ha hb

theorem onScalar_carries (ha : Carries m x a) (hdiv : op = .arith .div → y ≠ 0)
    (hex : ScalarExact [anyRow] op m (fun _ => x) y) :
    ∃ t, op.onScalar (.num y) a = .ok t ∧ Carries (op.isMask m) (op.eval x y) t := by
  cases op with
  | arith o =>
    exact scalarArith_column o ha (fun h _ _ => hdiv (congrArg _ h))
      (fun hne hm => encodable_integral hex.encodable (hex.integral (by simpa using hne) hm))
      fun hne hm => hex.fits o rfl hne hm
  | cmp o =>
    exact compareScalar_column o ha fun hm =>
      encodable_integral hex.encodable (hex.integral (by simp) hm)

theorem onScalar_left (hb : Carries m y b) (hop : op.Commutes)
    (hex : ScalarExact [anyRow] op m (fun _ => y) x) :
    ∃ t, op.onScalar (.num x) b = .ok t ∧ Carries (op.isMask m) (op.eval x y) t := by
  obtain ⟨t, ht, hc⟩ := onScalar_carries hb (fun h => absurd h hop.ne_div) hex
  rw [hop.eval] at hc
  exact ⟨t, ht, hc⟩

end

section

variable (libm : Libm) (store : TensorStore)

theorem invoke_binary (op : BinOp) (s s' : Source) :
    invoke libm store op.baseName [] [s, s'] = (do
      let a ← s.read store
      let b ← s'.read store
      op.onTensors a b) := by
  rcases op with op | op <;> cases op <;> rfl

theorem invoke_scalar (op : BinOp) (text : String) (s : Source) :
    invoke libm store (op.baseName ++ "_scalar") [("scalar", text)] [s] = (do
      let v ← stod text
      let a ← s.read store
      op.onScalar v a) := by
  rw [invoke, createKernel_scalar]
  cases stod text with
  | error e => rfl
  | ok v => rcases op with op | op <;> rfl

theorem evalScalar_encodable (op : BinOp) {c : ℚ} (h : Encodable c) (s : Source) :
    evalScalar libm store op (.num c) s = (do
      let a ← s.read store
      let t ← op.onScalar (.num c) a
      .ok (.source (.tensor t))) := by
  obtain ⟨text, hformat, hstod⟩ := format_encodable h
  simp only [evalScalar, hformat, except_ok_bind, invoke_scalar, hstod, bind_assoc]

theorem evalConst_encodable {c : ℚ} (h : Encodable c) :
    evalConst libm store (.num c) = .ok (single c) := by
  obtain ⟨text, hformat, hstod⟩ := format_encodable h
  rw [evalConst, hformat, except_ok_bind, invoke_const libm store (comma_notMem_format hformat),
    hstod]
  rfl

-- The calls that read their argument as doubles, whatever its dtype.
def readsDoubles : List String := ["sqrt", "exp", "log", "sum", "mean", "stddev", "count"]

variable {m : Bool} {c : ℚ} {s : Tensor}

theorem unary_carries (hs : Carries m c s) (f : Double → Double) :
    elementwiseUnary (throughDouble f) s .float64 =
      elementwiseUnary (throughDouble f) (single c) .float64 := by
  unfold elementwiseUnary
  rw [castTensor_float hs, castTensor_float (carries_single c)]

theorem tensorSum_carries (hs : Carries m c s) (hc : IsBinary64 c) :
    tensorSum s = tensorSum (single c) := by
  cases hs with
  | float => rfl
  | mask n hn =>
    obtain ⟨hq, hfit⟩ := hn anyRow (by simp)
    have hsum : (0 : Int64) + Int64.ofInt (n anyRow) = Int64.ofInt (n anyRow) := Int64.zero_add _
    have hexact : ofInt64 (Int64.ofInt (n anyRow)) = .num c := by
      rw [← hq] at hc ⊢
      exact (sum_exact_iff (n anyRow)).mpr ⟨hfit, hc⟩
    have hdouble : (0 : Double) + .num c = .num c := Double.zero_add _
    change Except.ok (ofInt64 (0 + Int64.ofInt (n anyRow))) = .ok (0 + .num c)
    rw [hsum, hexact, hdouble]

theorem reduce_carries (hs : Carries m c s) (hc : IsBinary64 c) (kind : ReduceKind)
    (hk : kind ≠ .max ∧ kind ≠ .min) : reduce libm kind s = reduce libm kind (single c) := by
  have hsize : s.size = (single c).size := by
    rw [columnOf_size hs]
    rfl
  have hmean : tensorMean s = tensorMean (single c) := by
    rw [tensorMean, tensorMean, tensorSum_carries hs hc, hsize]
  cases kind with
  | sum => exact congrArg (· >>= reduceToScalar .float64) (tensorSum_carries hs hc)
  | mean => exact congrArg (· >>= reduceToScalar .float64) hmean
  | count => exact congrArg (fun n : Nat => reduceToScalar .int64 (.num n)) hsize
  | max => exact absurd rfl hk.1
  | min => exact absurd rfl hk.2
  | stddev =>
    rw [reduce, reduce, hmean, hsize]
    cases hs with
    | float => rfl
    | mask n hn =>
      obtain ⟨hq, hlo, hhi⟩ := hn anyRow (by simp)
      have hvalue : Elem.toDouble (Int64.ofInt (n anyRow)) = .num c := by
        simp only [Elem.toDouble, Elem.toNum, Int64.toInt_ofInt_of_le hlo hhi, hq]
      have hread : [Elem.toDouble (Int64.ofInt (n anyRow))] = [Double.num c] := by rw [hvalue]
      simp only [List.map_cons, List.map_nil, hread]
      rfl

theorem invoke_reduce {fn : String} {kind : ReduceKind}
    (hk : createKernel ⟨fn, [""], [], []⟩ = .ok (.reduce kind)) (t : Tensor) :
    invoke libm store fn [] [.tensor t] = reduce libm kind t := by
  change (createKernel ⟨fn, [""], [], []⟩ >>= fun k => runKernel libm k _) = _
  rw [hk]
  rfl

theorem invoke_readsDoubles {fn : String} (hfn : fn ∈ readsDoubles) (hs : Carries m c s)
    (hc : IsBinary64 c) :
    invoke libm store fn [] [.tensor s] = invoke libm store fn [] [.tensor (single c)] := by
  have hcases : fn = "sqrt" ∨ fn = "exp" ∨ fn = "log" ∨ fn = "sum" ∨ fn = "mean" ∨
      fn = "stddev" ∨ fn = "count" := by
    simpa [readsDoubles] using hfn
  rcases hcases with rfl | rfl | rfl | rfl | rfl | rfl | rfl
  · exact unary_carries hs libm.sqrt
  · exact unary_carries hs libm.exp
  · exact unary_carries hs libm.log
  · rw [invoke_reduce libm store rfl, invoke_reduce libm store rfl]
    exact reduce_carries libm hs hc .sum (by simp)
  · rw [invoke_reduce libm store rfl, invoke_reduce libm store rfl]
    exact reduce_carries libm hs hc .mean (by simp)
  · rw [invoke_reduce libm store rfl, invoke_reduce libm store rfl]
    exact reduce_carries libm hs hc .stddev (by simp)
  · rw [invoke_reduce libm store rfl, invoke_reduce libm store rfl]
    exact reduce_carries libm hs hc .count (by simp)

theorem invoke_cast (name : String) (t : Tensor) :
    invoke libm store "cast" [("dtype", name)] [.tensor t] =
      parseDtype name >>= fun d => castTensor t d := by
  change ((parseDtype name >>= fun d => Except.ok (some (Kernel.cast d))) >>= _) >>= _ = _
  cases parseDtype name <;> rfl

theorem castTensor_one {t u : ScalarType} (hne : t ≠ u) {z : t.Carrier} {x : u.Carrier}
    (hx : Elem.ofNum (Elem.toNum z) = .ok x) :
    castTensor (.scalar t [z]) (.scalar u) = .ok (.scalar u [x]) := by
  rw [castTensor_scalar [z] hne, List.mapM_cons, hx]
  rfl

theorem castTensor_carries (hs : Carries m c s) {u : ScalarType}
    (hu : m = true → u = .int32 → InRange .int32 c) :
    castTensor s (.scalar u) = castTensor (single c) (.scalar u) := by
  cases hs with
  | float => rfl
  | mask n hn =>
    obtain ⟨rfl, hfit⟩ := hn anyRow (by simp)
    have hto : (Int64.ofInt (n anyRow)).toInt = n anyRow := Int64.toInt_ofInt_of_le hfit.1 hfit.2
    have hmask {u : ScalarType} {x : u.Carrier} (hne : u ≠ .int64)
        (hx : Elem.ofNum (.int (n anyRow)) = .ok x) :
        castTensor (.scalar .int64 [Int64.ofInt (n anyRow)]) (.scalar u) = .ok (.scalar u [x]) := by
      apply castTensor_one hne.symm
      exact (congrArg (fun k => Elem.ofNum (.int k)) hto).trans hx
    have hsingle {u : ScalarType} {x : u.Carrier} (hne : u ≠ .float64)
        (hx : Elem.ofNum (.dbl (.num (n anyRow))) = .ok x) :
        castTensor (single (n anyRow)) (.scalar u) = .ok (.scalar u [x]) :=
      castTensor_one hne.symm hx
    cases u with
    | int32 =>
      obtain ⟨hlo, hhi⟩ := hu rfl rfl
      have hint := Double.toInt_intCast 32 ⟨by exact_mod_cast hlo, by exact_mod_cast hhi⟩
      have hcast : (Elem.ofNum (.dbl (.num (n anyRow))) : Except Exn Int32) =
          .ok (Int32.ofInt (n anyRow)) := by simp [Elem.ofNum, hint]
      exact (hmask (by decide) rfl).trans (@hsingle .int32 _ (by decide) hcast).symm
    | int64 =>
      exact (castTensor_self _).trans (@hsingle .int64 _ (by decide) (ofDouble_int64 hfit)).symm
    | float32 => exact (hmask (by decide) rfl).trans (hsingle (by decide) rfl).symm
    | float64 => exact (castTensor_float (.mask n hn)).trans (castTensor_self _).symm

theorem cast_carries (hs : Carries m c s) {name : String}
    (hname : m = true → name = "int32" → InRange .int32 c) :
    invoke libm store "cast" [("dtype", name)] [.tensor s] =
      invoke libm store "cast" [("dtype", name)] [.tensor (single c)] := by
  rw [invoke_cast, invoke_cast, parseDtype]
  split_ifs with h32
  · exact castTensor_carries hs fun hm _ => hname hm h32
  · exact castTensor_carries hs nofun
  · exact castTensor_carries hs nofun
  · exact castTensor_carries hs nofun
  · rfl

end

-- Arithmetic in doubles is the exact one, rounded.
def rounded : Double → Double
  | .num q => .round q
  | d => d

-- What the parser's folding makes of a term without columns.
def Term.folds : Term → Double
  | .lit int frac => .round (decimalValue int frac)
  | .neg e => -e.folds
  | .paren e => e.folds
  | .bin op l r => rounded (op.fold l.folds r.folds)
  | _ => .nan

end Lark.Column.Biz.Dsl
