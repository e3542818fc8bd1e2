import Lark.Column.Exec.Conversions

namespace Lark.Column

open Lark.Base

def Num.toDouble : Num → Double
  | .int n => .num n
  | .dbl d => d

def Tensor.values (a : Tensor) : List Double := a.elems.map Num.toDouble

theorem Tensor.values_scalar {t : ScalarType} (data : List t.Carrier) :
    (Tensor.scalar t data).values = data.map Elem.toDouble := by
  simp only [values, elems, List.map_map]
  apply List.map_congr_left
  intro x _
  cases h : Elem.toNum x <;> simp [Function.comp_apply, Elem.toDouble, Num.toDouble, h]

namespace Exec

def column (n : Nat) (v : ℚ) : Tensor := .scalar .float64 (List.replicate n (.num v))

def Agree (r r' : Except Exn Tensor) : Prop :=
  ∃ x y, r = .ok x ∧ r' = .ok y ∧ x.values = y.values

def InRange : ScalarType → ℚ → Prop
  | .int32, q => -2 ^ 31 ≤ q ∧ q < 2 ^ 31
  | .int64, q => -2 ^ 63 ≤ q ∧ q < 2 ^ 63
  | _, _ => True

def castScalar : ScalarType → ℚ → ℚ
  | .int32, v => Double.truncate v
  | .int64, v => Double.truncate v
  | _, v => v

structure IntType (t : ScalarType) where
  toInt : t.Carrier → Int
  castScalar_eq : ∀ v, castScalar t v = Double.truncate v
  toDouble_eq : ∀ x, Elem.toDouble x = .num (toInt x)
  ofDouble_num : ∀ v : ℚ, InRange t (Double.truncate v) →
    ∃ s : t.Carrier, Elem.ofDouble (.num v) = .ok s ∧ toInt s = Double.truncate v
  toInt_add : ∀ x y, InRange t (toInt x + toInt y : Int) → toInt (x + y) = toInt x + toInt y
  toInt_sub : ∀ x y, InRange t (toInt x - toInt y : Int) → toInt (x - y) = toInt x - toInt y
  toInt_mul : ∀ x y, InRange t (toInt x * toInt y : Int) → toInt (x * y) = toInt x * toInt y
  lt_eq : ∀ x y : t.Carrier, Elem.lt x y = decide (toInt x < toInt y)
  eq_eq : ∀ x y : t.Carrier, Elem.eq x y = decide (toInt x = toInt y)

theorem bmod_of_inRange {n : Int} {w : Nat} (h : -2 ^ w ≤ (n : ℚ) ∧ (n : ℚ) < 2 ^ w) :
    n.bmod (2 ^ (w + 1)) = n := by
  have hlo : -2 ^ w ≤ n := by exact_mod_cast h.1
  have hhi : n < 2 ^ w := by exact_mod_cast h.2
  apply Int.bmod_eq_of_le_mul_two
  · push_cast
    rw [pow_succ]
    omega
  · push_cast
    rw [pow_succ]
    omega

def int32Type : IntType .int32 where
  toInt := Int32.toInt
  castScalar_eq _ := rfl
  toDouble_eq _ := rfl
  ofDouble_num v h := by
    have hlo : -2 ^ 31 ≤ Double.truncate v := by exact_mod_cast h.1
    have hhi : Double.truncate v < 2 ^ 31 := by exact_mod_cast h.2
    refine ⟨Int32.ofInt (Double.truncate v), ?_, Int32.toInt_ofInt_of_le hlo hhi⟩
    have hcast : Double.toInt 32 (.num v) = some (Double.truncate v) := by
      rw [Double.toInt_num, if_pos ⟨hlo, hhi⟩]
    simp [Elem.ofDouble, Elem.ofNum, hcast]
  toInt_add x y h := (Int32.toInt_add x y).trans (bmod_of_inRange h)
  toInt_sub x y h := (Int32.toInt_sub x y).trans (bmod_of_inRange h)
  toInt_mul x y h := (Int32.toInt_mul x y).trans (bmod_of_inRange h)
  lt_eq x y := by simp [Elem.lt, Int32.lt_iff_toInt_lt]
  eq_eq x y := by simp [Elem.eq, Int32.toInt_inj]

def int64Type : IntType .int64 where
  toInt := Int64.toInt
  castScalar_eq _ := rfl
  toDouble_eq _ := rfl
  ofDouble_num v h := by
    have hlo : -2 ^ 63 ≤ Double.truncate v := by exact_mod_cast h.1
    have hhi : Double.truncate v < 2 ^ 63 := by exact_mod_cast h.2
    refine ⟨Int64.ofInt (Double.truncate v), ?_, Int64.toInt_ofInt_of_le hlo hhi⟩
    have hcast : Double.toInt 64 (.num v) = some (Double.truncate v) := by
      rw [Double.toInt_num, if_pos ⟨hlo, hhi⟩]
    simp [Elem.ofDouble, Elem.ofNum, hcast]
  toInt_add x y h := (Int64.toInt_add x y).trans (bmod_of_inRange h)
  toInt_sub x y h := (Int64.toInt_sub x y).trans (bmod_of_inRange h)
  toInt_mul x y h := (Int64.toInt_mul x y).trans (bmod_of_inRange h)
  lt_eq x y := by simp [Elem.lt, Int64.lt_iff_toInt_lt]
  eq_eq x y := by simp [Elem.eq, Int64.toInt_inj]

section

variable {t : ScalarType} (I : IntType t)

theorem IntType.apply_int (op : ArithOp) (hop : op ≠ .div) (x y : t.Carrier)
    (h : InRange t (op.eval (I.toInt x) (I.toInt y))) :
    ∃ r, op.apply t x y = .ok r ∧ (I.toInt r : ℚ) = op.eval (I.toInt x) (I.toInt y) := by
  cases op with
  | add =>
    refine ⟨x + y, rfl, ?_⟩
    rw [I.toInt_add x y (by push_cast; exact h)]
    simp [ArithOp.eval]
  | sub =>
    refine ⟨x - y, rfl, ?_⟩
    rw [I.toInt_sub x y (by push_cast; exact h)]
    simp [ArithOp.eval]
  | mul =>
    refine ⟨x * y, rfl, ?_⟩
    rw [I.toInt_mul x y (by push_cast; exact h)]
    simp [ArithOp.eval]
  | div => exact absurd rfl hop

theorem IntType.apply_cmp (op : CmpOp) (x y : t.Carrier) :
    op.apply x y = op.holds (I.toInt x) (I.toInt y) := by
  cases op <;> simp [CmpOp.apply, CmpOp.holds, Elem.le, I.lt_eq, I.eq_eq, le_iff_lt_or_eq]

end

def ArithOp.onDoubles : ArithOp → Double → Double → Double
  | .add, x, y => x + y
  | .sub, x, y => x - y
  | .mul, x, y => x * y
  | .div, x, y => x / y

theorem apply_double (op : ArithOp) (x y : Double) :
    op.apply .float64 x y = .ok (op.onDoubles x y) := by
  cases op <;> rfl

section

variable {t : ScalarType} (data : List t.Carrier)

theorem ofNum_double (x : t.Carrier) :
    (Elem.ofNum (Elem.toNum x) : Except Exn Double) = .ok (Elem.toDouble x) := by
  rw [Elem.toDouble]
  cases Elem.toNum x <;> rfl

theorem readable_double : Readable (.scalar t data) .float64 (data.map Elem.toDouble) := by
  have hmap : data.mapM (fun x => (Elem.ofNum (Elem.toNum x) : Except Exn Double)) =
      .ok (data.map Elem.toDouble) := mapM_ok fun x _ => ofNum_double x
  refine ⟨?_, .scalar .float64 (data.map Elem.toDouble), ?_, by simp⟩
  · rw [Tensor.elems, List.mapM_map]
    exact hmap
  · by_cases ht : t = .float64
    · subst ht
      rw [castTensor_self]
      exact congrArg (fun l => Except.ok (Tensor.scalar .float64 l)) (List.map_id data).symm
    · rw [castTensor_scalar data ht]
      exact congrArg (· >>= fun r => Except.ok (Tensor.scalar .float64 r)) hmap

theorem zip_replicate {α β : Type} (xs : List α) (y : β) :
    List.zip xs (List.replicate xs.length y) = xs.map fun x => (x, y) := by
  induction xs with
  | nil => rfl
  | cons x xs ih => simp [List.replicate_succ, ih]

theorem promote_double : promote (.scalar t) .float64 = .float64 := by
  cases t <;> rfl

theorem readable_column (n : Nat) (c : ℚ) :
    Readable (column n c) .float64 (List.replicate n (.num c)) := readable_same _

theorem column_size (c : ℚ) : (Tensor.scalar t data).size = (column data.length c).size := by
  simp [column, Tensor.size]

theorem zip_column (c : ℚ) :
    List.zip (data.map Elem.toDouble) (List.replicate data.length (Double.num c)) =
      (data.map Elem.toDouble).map fun x => (x, Double.num c) := by
  rw [← zip_replicate, List.length_map]

theorem binaryArith_column (op : ArithOp) (c : ℚ) :
    binaryArith op (.scalar t data) (column data.length c) =
      .ok (.scalar .float64 (data.map fun x => op.onDoubles (Elem.toDouble x) (.num c))) := by
  have hout : (if op = .div then DType.float64
      else promote (Tensor.scalar t data).dtype (column data.length c).dtype) =
        .scalar .float64 := by
    split_ifs
    · rfl
    · exact promote_double
  rw [binaryArith, hout, elementwiseBinary_readable op.apply (column_size data c)
    (readable_double data) (readable_column _ c), zip_column, List.map_map, List.mapM_map]
  have hmap := mapM_ok fun x (_ : x ∈ data) => apply_double op (Elem.toDouble x) (.num c)
  exact congrArg (· >>= fun r => Except.ok (Tensor.scalar .float64 r)) hmap

theorem compare_column (op : CmpOp) (c : ℚ) :
    compare op (.scalar t data) (column data.length c) =
      .ok (.scalar .int64 (data.map fun x => maskOf (op.apply (Elem.toDouble x) (.num c)))) := by
  rw [compare_readable op (column_size data c) promote_double (readable_double data)
    (readable_column _ c), zip_column, List.map_map, List.map_map]
  rfl

theorem scalarArith_div (v : ℚ) :
    scalarArith .div (.num v) (.scalar t data) =
      .ok (.scalar .float64 (data.map fun x => Elem.toDouble x / .num v)) := by
  obtain ⟨ra, hra, hpa⟩ := (readable_double data).reads
  have hmap := mapM_ok fun x (_ : x ∈ data.map Elem.toDouble) => apply_double .div x (.num v)
  rw [List.map_map] at hmap
  have hscalar : (Elem.ofDouble (Double.num v) : Except Exn Double) = .ok (.num v) := rfl
  unfold scalarArith elementwiseScalar
  rw [if_pos rfl]
  simp only [DType.float64, hra, except_ok_bind, hpa, hscalar, hmap]
  rfl

theorem onDoubles_num (op : ArithOp) (hop : op ≠ .div) (x y : ℚ) :
    op.onDoubles (.num x) (.num y) = .num (op.eval x y) := by
  cases op with
  | div => exact absurd rfl hop
  | sub => exact Double.num_sub x y
  | _ => rfl

theorem scalarArith_double (op : ArithOp) (x v : Double) :
    scalarArith op v (.scalar .float64 [x]) = .ok (.scalar .float64 [op.onDoubles x v]) := by
  cases op <;> rfl

theorem scalarArith_agrees (op : ArithOp) (hop : op ≠ .div) {v c : ℚ} {s : t.Carrier}
    (hs : Elem.ofDouble (.num v) = .ok s)
    (hstep : ∀ x ∈ data, ∃ r, op.apply t x s = .ok r ∧
      Elem.toDouble r = op.onDoubles (Elem.toDouble x) (.num c)) :
    Agree (scalarArith op (.num v) (.scalar t data))
      (binaryArith op (.scalar t data) (column data.length c)) := by
  have hne : Nonempty t.Carrier := ⟨s⟩
  choose! r hr hval using hstep
  refine ⟨.scalar t (data.map r), _, ?_, binaryArith_column data op _, ?_⟩
  · unfold scalarArith elementwiseScalar
    rw [if_neg hop]
    simp only [promoteScalar, Tensor.dtype, castTensor_self, except_ok_bind, Tensor.dataAs_scalar,
      hs, mapM_ok hr]
  · rw [Tensor.values_scalar, Tensor.values_scalar, List.map_map, List.map_map]
    exact List.map_congr_left hval

theorem compareScalar_agrees (op : CmpOp) {v c : ℚ} {s : t.Carrier}
    (hs : Elem.ofDouble (.num v) = .ok s)
    (hstep : ∀ x ∈ data, op.apply x s = op.apply (Elem.toDouble x) (.num c)) :
    Agree (compareScalar op (.num v) (.scalar t data))
      (compare op (.scalar t data) (column data.length c)) := by
  refine ⟨.scalar .int64 (data.map fun x => maskOf (op.apply x s)), _, ?_,
    compare_column data op _, ?_⟩
  · simp only [compareScalar, hs, except_ok_bind]
  · refine congrArg (fun l => (Tensor.scalar .int64 l).values) (List.map_congr_left fun x hx => ?_)
    rw [hstep x hx]

structure TruncatesTo (t : ScalarType) (data : List t.Carrier) (v : ℚ) : Prop where
  arith : ∀ op : ArithOp, op ≠ .div →
    (∀ x ∈ data, ∀ q, Elem.toDouble x = .num q → InRange t (op.eval q (castScalar t v))) →
      Agree (scalarArith op (.num v) (.scalar t data))
        (binaryArith op (.scalar t data) (column data.length (castScalar t v)))
  compare : ∀ op : CmpOp,
    Agree (compareScalar op (.num v) (.scalar t data))
      (compare op (.scalar t data) (column data.length (castScalar t v)))

theorem IntType.truncates (I : IntType t) {v : ℚ} (hv : InRange t (castScalar t v)) :
    TruncatesTo t data v := by
  rw [I.castScalar_eq] at hv
  obtain ⟨s, hs, htoInt⟩ := I.ofDouble_num v hv
  refine ⟨?_, ?_⟩
  · intro op hop hfit
    rw [I.castScalar_eq] at hfit ⊢
    refine scalarArith_agrees data op hop hs fun x hx => ?_
    obtain ⟨r, hr, hval⟩ := I.apply_int op hop x s
      (by rw [htoInt]; exact hfit x hx _ (I.toDouble_eq x))
    refine ⟨r, hr, ?_⟩
    rw [I.toDouble_eq, I.toDouble_eq, onDoubles_num op hop, hval, htoInt]
  · intro op
    rw [I.castScalar_eq]
    refine compareScalar_agrees data op hs fun x _ => ?_
    rw [I.apply_cmp, I.toDouble_eq, apply_cmp_float, htoInt]

end

theorem truncates_float {t : ScalarType} (ht : t = .float32 ∨ t = .float64)
    (data : List t.Carrier) (v : ℚ) : TruncatesTo t data v := by
  rcases ht with rfl | rfl
  all_goals
    refine ⟨?_, ?_⟩
    · intro op hop _
      refine scalarArith_agrees data op hop rfl fun x _ => ?_
      cases op <;> exact ⟨_, rfl, rfl⟩
    · intro op
      exact compareScalar_agrees data op rfl fun x _ => rfl

theorem scalar_ops_truncate {t : ScalarType} (data : List t.Carrier) (v : ℚ) :
    (InRange t (castScalar t v) → TruncatesTo t data v) ∧
      Agree (scalarArith .div (.num v) (.scalar t data))
        (binaryArith .div (.scalar t data) (column data.length v)) := by
  constructor
  · intro hv
    cases t with
    | int32 => exact int32Type.truncates data hv
    | int64 => exact int64Type.truncates data hv
    | float32 => exact truncates_float (.inl rfl) data v
    | float64 => exact truncates_float (.inr rfl) data v
  · exact ⟨_, _, scalarArith_div data v, binaryArith_column data .div v, rfl⟩

theorem scalar_ops_truncate_pair :
    InRange .int32 (castScalar .int32 (5 / 2)) ∧
      Agree (compareScalar .ge (.num (5 / 2)) (.scalar .int32 [2, 3]))
        (compare .ge (.scalar .int32 [2, 3]) (column 2 (castScalar .int32 (5 / 2)))) := by
  have hrange : InRange .int32 (castScalar .int32 (5 / 2)) := by
    have hcast : castScalar .int32 (5 / 2) = 2 := by decide +kernel
    rw [hcast]
    constructor <;> norm_num
  exact ⟨hrange, ((scalar_ops_truncate [2, 3] (5 / 2)).1 hrange).compare .ge⟩

theorem scalar_ops_disagree :
    ¬ Agree (scalarArith .add (.num (1 / 2)) (.scalar .int64 [2]))
        (binaryArith .add (.scalar .int64 [2]) (column 1 (1 / 2))) ∧
      ¬ Agree (compareScalar .eq (.num (5 / 2)) (.scalar .int64 [2]))
        (compare .eq (.scalar .int64 [2]) (column 1 (5 / 2))) := by
  constructor
  · have hscalar : scalarArith .add (.num (1 / 2)) (.scalar .int64 [2]) =
        .ok (.scalar .int64 [2]) := by decide +kernel
    have hcolumn : binaryArith .add (.scalar .int64 [2]) (column 1 (1 / 2)) =
        .ok (.scalar .float64 [.num (5 / 2)]) := by decide +kernel
    rintro ⟨x, y, hx, hy, hvalues⟩
    obtain rfl := Except.ok.inj (hscalar.symm.trans hx)
    obtain rfl := Except.ok.inj (hcolumn.symm.trans hy)
    exact absurd hvalues (by decide +kernel)
  · have hscalar : compareScalar .eq (.num (5 / 2)) (.scalar .int64 [2]) =
        .ok (.scalar .int64 [1]) := by decide +kernel
    have hcolumn : compare .eq (.scalar .int64 [2]) (column 1 (5 / 2)) =
        .ok (.scalar .int64 [0]) := by decide +kernel
    rintro ⟨x, y, hx, hy, hvalues⟩
    obtain rfl := Except.ok.inj (hscalar.symm.trans hx)
    obtain rfl := Except.ok.inj (hcolumn.symm.trans hy)
    exact absurd hvalues (by decide +kernel)

end Exec

end Lark.Column
