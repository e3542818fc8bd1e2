import Lark.Column.Exec.Kernels

namespace Lark.Column.Exec

open Lark.Base

def ArithOp.eval : ArithOp → ℚ → ℚ → ℚ
  | .add, x, y => x + y
  | .sub, x, y => x - y
  | .mul, x, y => x * y
  | .div, x, y => x / y

def CmpOp.holds : CmpOp → ℚ → ℚ → Bool
  | .gt, x, y => y < x
  | .ge, x, y => y ≤ x
  | .lt, x, y => x < y
  | .le, x, y => x ≤ y
  | .eq, x, y => x = y
  | .neq, x, y => x ≠ y

def CmpOp.eval (op : CmpOp) (x y : ℚ) : ℚ := if op.holds x y then 1 else 0

def FitsInt64 (n : Int) : Prop := -2 ^ 63 ≤ n ∧ n < 2 ^ 63

section

variable {ι : Type}

-- A column over `rows` with exact values `f`: float64, or an int64 mask whose values are integers.
inductive ColumnOf (rows : List ι) (f : ι → ℚ) : Bool → Tensor → Prop
  | float : ColumnOf rows f false (.scalar .float64 (rows.map fun r => Double.num (f r)))
  | mask (g : ι → Int) (hg : ∀ r ∈ rows, (g r : ℚ) = f r ∧ FitsInt64 (g r)) :
      ColumnOf rows f true (.scalar .int64 (rows.map fun r => Int64.ofInt (g r)))

variable {rows : List ι} {f g : ι → ℚ} {m m' : Bool} {a b : Tensor}

theorem columnOf_size (h : ColumnOf rows f m a) : a.size = rows.length := by
  cases h with
  | float => simp [Tensor.size]
  | mask g hg => simp [Tensor.size]

theorem columnOf_dtype (h : ColumnOf rows f m a) :
    a.dtype = if m then .int64 else .float64 := by
  cases h <;> rfl

theorem columnOf_congr (h : ColumnOf rows f m a) (hfg : ∀ r ∈ rows, f r = g r) :
    ColumnOf rows g m a := by
  cases h with
  | float =>
    have he : (rows.map fun r => Double.num (f r)) = rows.map fun r => Double.num (g r) :=
      List.map_congr_left fun r hr => by rw [hfg r hr]
    rw [he]
    exact .float
  | mask n hn => exact .mask n fun r hr => hfg r hr ▸ hn r hr

theorem castTensor_scalar {t t' : ScalarType} (data : List t.Carrier) (h : t ≠ t') :
    castTensor (.scalar t data) (.scalar t') =
      (data.mapM fun x => Elem.ofNum (Elem.toNum x)) >>= fun r => .ok (.scalar t' r) := by
  unfold castTensor
  rw [if_neg (by simpa [Tensor.dtype] using h)]

theorem castTensor_self {t : ScalarType} (data : List t.Carrier) :
    castTensor (.scalar t data) (.scalar t) = .ok (.scalar t data) := by
  unfold castTensor
  exact if_pos rfl

theorem castTensor_float (h : ColumnOf rows f m a) :
    castTensor a .float64 = .ok (.scalar .float64 (rows.map fun r => Double.num (f r))) := by
  cases h with
  | float => exact castTensor_self _
  | mask n hn =>
    have hmap : (rows.map fun r => Int64.ofInt (n r)).mapM
        (fun x => (Elem.ofNum (Elem.toNum x) : Except Exn Double)) =
          .ok (rows.map fun r => Double.num (f r)) := by
      rw [List.mapM_map]
      refine mapM_ok fun r hr => ?_
      obtain ⟨hq, hlo, hhi⟩ := hn r hr
      have hint : (Int64.ofInt (n r)).toInt = n r := Int64.toInt_ofInt_of_le hlo hhi
      simp only [Function.comp_apply, Elem.toNum, Elem.ofNum, hint, hq]
    refine (castTensor_scalar _ (by decide)).trans ?_
    exact congrArg (· >>= fun r => Except.ok (Tensor.scalar .float64 r)) hmap

theorem promote_columns (ha : ColumnOf rows f m a) (hb : ColumnOf rows g m' b) :
    promote a.dtype b.dtype = if m && m' then .int64 else .float64 := by
  rw [columnOf_dtype ha, columnOf_dtype hb]
  cases m <;> cases m' <;> rfl

theorem zip_map_rows {α β : Type} (rows : List ι) (f : ι → α) (g : ι → β) :
    List.zip (rows.map f) (rows.map g) = rows.map fun r => (f r, g r) := by
  induction rows with
  | nil => rfl
  | cons r rows ih => simp [ih]

theorem elementwiseBinary_float (ha : ColumnOf rows f m a) (hb : ColumnOf rows g m' b)
    {fn : (t : ScalarType) → t.Carrier → t.Carrier → Except Exn t.Carrier} {h : ι → ℚ}
    (hfn : ∀ r ∈ rows, fn .float64 (Double.num (f r)) (Double.num (g r)) = .ok (Double.num (h r))) :
    elementwiseBinary fn a b .float64 =
      .ok (.scalar .float64 (rows.map fun r => Double.num (h r))) := by
  have hsize : ¬ b.size ≠ a.size := by simp [columnOf_size ha, columnOf_size hb]
  have hmap : (List.zip (rows.map fun r => Double.num (f r))
      (rows.map fun r => Double.num (g r))).mapM (fun p => fn .float64 p.1 p.2) =
        .ok (rows.map fun r => Double.num (h r)) := by
    rw [zip_map_rows, List.mapM_map]
    exact mapM_ok hfn
  unfold elementwiseBinary
  rw [if_neg hsize, castTensor_float ha, castTensor_float hb]
  simp only [except_ok_bind, DType.float64, Tensor.dataAs_scalar, hmap]

theorem apply_float (op : ArithOp) (x y : ℚ) (h : op = .div → y ≠ 0) :
    op.apply .float64 (Double.num x) (Double.num y) = .ok (Double.num (op.eval x y)) := by
  cases op with
  | add => rfl
  | sub =>
    change Except.ok (Double.num x - Double.num y) = _
    rw [Double.num_sub]
    rfl
  | mul => rfl
  | div =>
    change Except.ok (Double.num x / Double.num y) = _
    rw [Double.num_div _ _ (h rfl)]
    rfl

theorem apply_int64 (op : ArithOp) (x y : Int) (h : op ≠ .div) :
    ∃ z : Int, op.apply .int64 (Int64.ofInt x) (Int64.ofInt y) = .ok (Int64.ofInt z) ∧
      (z : ℚ) = op.eval x y := by
  cases op with
  | add => exact ⟨x + y, by rw [Int64.ofInt_add]; rfl, by simp [ArithOp.eval]⟩
  | sub => exact ⟨x - y, by rw [Int64.ofInt_sub]; rfl, by simp [ArithOp.eval]⟩
  | mul => exact ⟨x * y, by rw [Int64.ofInt_mul]; rfl, by simp [ArithOp.eval]⟩
  | div => exact absurd rfl h

def FitsOver (rows : List ι) (f : ι → ℚ) : Prop := ∀ r ∈ rows, -2 ^ 63 ≤ f r ∧ f r < 2 ^ 63

theorem fitsInt64_of_cast {n : Int} {q : ℚ} (hn : (n : ℚ) = q) (h : -2 ^ 63 ≤ q ∧ q < 2 ^ 63) :
    FitsInt64 n := by
  subst hn
  exact ⟨by exact_mod_cast h.1, by exact_mod_cast h.2⟩

theorem binaryArith_columns (op : ArithOp) (ha : ColumnOf rows f m a) (hb : ColumnOf rows g m' b)
    (hdiv : op = .div → ∀ r ∈ rows, g r ≠ 0)
    (hfit : op ≠ .div → m = true → m' = true → FitsOver rows fun r => op.eval (f r) (g r)) :
    ∃ t, binaryArith op a b = .ok t ∧
      ColumnOf rows (fun r => op.eval (f r) (g r)) (op ≠ .div && m && m') t := by
  by_cases hmask : op ≠ .div ∧ m = true ∧ m' = true
  · obtain ⟨hop, rfl, rfl⟩ := hmask
    have hfit := hfit hop rfl rfl
    have hpro := promote_columns ha hb
    cases ha with
    | mask n hn =>
      cases hb with
      | mask k hk =>
        choose z hz using fun r : ι => apply_int64 op (n r) (k r) hop
        refine ⟨.scalar .int64 (rows.map fun r => Int64.ofInt (z r)), ?_, ?_⟩
        · unfold binaryArith elementwiseBinary
          rw [if_neg hop, hpro, if_neg (by simp [Tensor.size])]
          have hmap : (List.zip (rows.map fun r => Int64.ofInt (n r))
              (rows.map fun r => Int64.ofInt (k r))).mapM (fun p => op.apply .int64 p.1 p.2) =
                .ok (rows.map fun r => Int64.ofInt (z r)) := by
            rw [zip_map_rows, List.mapM_map]
            exact mapM_ok fun r _ => (hz r).1
          simp only [Bool.and_self, if_true, DType.int64, castTensor_self, except_ok_bind,
            Tensor.dataAs_scalar, hmap]
        · simp only [hop, ne_eq, not_false_eq_true, decide_true, Bool.and_self]
          refine .mask z fun r hr => ?_
          have hv : (z r : ℚ) = op.eval (f r) (g r) := by
            rw [(hz r).2, (hn r hr).1, (hk r hr).1]
          exact ⟨hv, fitsInt64_of_cast hv (hfit r hr)⟩
  · have hout : (if op = .div then DType.float64 else promote a.dtype b.dtype) = .float64 := by
      split_ifs with hop
      · rfl
      · rw [promote_columns ha hb, if_neg]
        simp only [Bool.and_eq_true]
        exact fun hm => hmask ⟨hop, hm⟩
    have hkind : (op ≠ .div && m && m') = false := by
      by_contra hne
      exact hmask (by simpa [and_assoc] using hne)
    refine ⟨.scalar .float64 (rows.map fun r => Double.num (op.eval (f r) (g r))), ?_, ?_⟩
    · rw [binaryArith, hout]
      exact elementwiseBinary_float ha hb fun r hr => apply_float op _ _ fun hop => hdiv hop r hr
    · rw [hkind]
      exact .float

theorem elementwiseScalar_float (ha : ColumnOf rows f m a)
    {fn : (t : ScalarType) → t.Carrier → t.Carrier → Except Exn t.Carrier} {h : ι → ℚ} {c : ℚ}
    (hfn : ∀ r ∈ rows, fn .float64 (Double.num (f r)) (Double.num c) = .ok (Double.num (h r))) :
    elementwiseScalar fn a (.num c) .float64 =
      .ok (.scalar .float64 (rows.map fun r => Double.num (h r))) := by
  have hmap : (rows.map fun r => Double.num (f r)).mapM (fun x => fn .float64 x (Double.num c)) =
      .ok (rows.map fun r => Double.num (h r)) := by
    rw [List.mapM_map]
    exact mapM_ok hfn
  have hscalar : (Elem.ofDouble (Double.num c) : Except Exn Double) = .ok (.num c) := rfl
  unfold elementwiseScalar
  rw [castTensor_float ha]
  simp only [except_ok_bind, DType.float64, Tensor.dataAs_scalar, hscalar, hmap]

theorem ofDouble_int64 {n : Int} (h : FitsInt64 n) :
    (Elem.ofDouble (Double.num n) : Except Exn Int64) = .ok (Int64.ofInt n) := by
  have := Double.toInt_intCast 64 h
  simp [Elem.ofDouble, Elem.ofNum, this]

theorem scalarArith_column (op : ArithOp) (ha : ColumnOf rows f m a) {c : ℚ}
    (hdiv : op = .div → ∀ r ∈ rows, c ≠ 0)
    (hint : op ≠ .div → m = true → ∃ n : Int, (n : ℚ) = c ∧ FitsInt64 n)
    (hfit : op ≠ .div → m = true → FitsOver rows fun r => op.eval (f r) c) :
    ∃ t, scalarArith op (.num c) a = .ok t ∧
      ColumnOf rows (fun r => op.eval (f r) c) (op ≠ .div && m) t := by
  by_cases hmask : op ≠ .div ∧ m = true
  · obtain ⟨hop, rfl⟩ := hmask
    obtain ⟨k, rfl, hk⟩ := hint hop rfl
    have hfit := hfit hop rfl
    cases ha with
    | mask n hn =>
      choose z hz using fun r : ι => apply_int64 op (n r) k hop
      refine ⟨.scalar .int64 (rows.map fun r => Int64.ofInt (z r)), ?_, ?_⟩
      · have hmap : (rows.map fun r => Int64.ofInt (n r)).mapM
            (fun x => op.apply .int64 x (Int64.ofInt k)) =
              .ok (rows.map fun r => Int64.ofInt (z r)) := by
          rw [List.mapM_map]
          exact mapM_ok fun r _ => (hz r).1
        unfold scalarArith elementwiseScalar
        rw [if_neg hop]
        simp only [promoteScalar, Tensor.dtype, castTensor_self, except_ok_bind,
          Tensor.dataAs_scalar, ofDouble_int64 hk, hmap]
      · simp only [hop, ne_eq, not_false_eq_true, decide_true, Bool.and_self]
        refine .mask z fun r hr => ?_
        have hv : (z r : ℚ) = op.eval (f r) k := by rw [(hz r).2, (hn r hr).1]
        exact ⟨hv, fitsInt64_of_cast hv (hfit r hr)⟩
  · have hout : (if op = .div then DType.float64 else promoteScalar a.dtype) = .float64 := by
      split_ifs with hop
      · rfl
      · rw [promoteScalar, columnOf_dtype ha, if_neg]
        exact fun hm => hmask ⟨hop, hm⟩
    have hkind : (op ≠ .div && m) = false := by
      by_contra hne
      exact hmask (by simpa using hne)
    refine ⟨.scalar .float64 (rows.map fun r => Double.num (op.eval (f r) c)), ?_, ?_⟩
    · rw [scalarArith, hout]
      exact elementwiseScalar_float ha fun r hr => apply_float op _ _ fun hop => hdiv hop r hr
    · rw [hkind]
      exact .float

theorem apply_cmp_float (op : CmpOp) (x y : ℚ) :
    op.apply (Double.num x) (Double.num y) = op.holds x y := by
  cases op <;> simp [CmpOp.apply, CmpOp.holds, Elem.lt, Elem.le, Elem.eq, le_iff_lt_or_eq]

theorem apply_cmp_int64 (op : CmpOp) {x y : Int} (hx : FitsInt64 x) (hy : FitsInt64 y) :
    op.apply (Int64.ofInt x) (Int64.ofInt y) = op.holds x y := by
  have hx' : (Int64.ofInt x).toInt = x := Int64.toInt_ofInt_of_le hx.1 hx.2
  have hy' : (Int64.ofInt y).toInt = y := Int64.toInt_ofInt_of_le hy.1 hy.2
  have heq : Int64.ofInt x = Int64.ofInt y ↔ x = y := by
    rw [← Int64.toInt_inj, hx', hy']
  have heq' : Int64.ofInt y = Int64.ofInt x ↔ y = x := by
    rw [← Int64.toInt_inj, hx', hy']
  cases op <;>
    simp [CmpOp.apply, CmpOp.holds, Elem.lt, Elem.le, Elem.eq, Int64.lt_iff_toInt_lt, hx', hy', heq,
      heq', le_iff_lt_or_eq]

theorem columnOf_mask (p : ι → Bool) :
    ColumnOf rows (fun r => if p r then (1 : ℚ) else 0) true
      (.scalar .int64 (rows.map fun r => maskOf (p r))) := by
  have hmap : (rows.map fun r => maskOf (p r)) =
      rows.map fun r => Int64.ofInt (if p r then 1 else 0) := by
    refine List.map_congr_left fun r _ => ?_
    cases p r <;> rfl
  rw [hmap]
  refine .mask _ fun r _ => ?_
  cases p r <;> simp [FitsInt64]

theorem compare_columns (op : CmpOp) (ha : ColumnOf rows f m a) (hb : ColumnOf rows g m' b) :
    ∃ t, compare op a b = .ok t ∧ ColumnOf rows (fun r => op.eval (f r) (g r)) true t := by
  have hsize : ¬ a.size ≠ b.size := by simp [columnOf_size ha, columnOf_size hb]
  refine ⟨_, ?_, columnOf_mask fun r => op.holds (f r) (g r)⟩
  unfold compare
  rw [if_neg hsize, promote_columns ha hb]
  cases hmm : m && m' with
  | true =>
    obtain ⟨rfl, rfl⟩ : m = true ∧ m' = true := by simpa using hmm
    cases ha with
    | mask n hn =>
      cases hb with
      | mask k hk =>
        simp only [if_true, DType.int64, castTensor_self, except_ok_bind, Tensor.dataAs_scalar,
          zip_map_rows, List.map_map]
        refine congrArg (fun l => Except.ok (Tensor.scalar .int64 l)) ?_
        refine List.map_congr_left fun r hr => ?_
        simp only [Function.comp_apply]
        rw [apply_cmp_int64 op (hn r hr).2 (hk r hr).2, (hn r hr).1, (hk r hr).1]
  | false =>
    have hca := castTensor_float ha
    have hcb := castTensor_float hb
    simp only [DType.float64] at hca hcb
    simp only [Bool.false_eq_true, if_false, DType.float64, hca, hcb, except_ok_bind,
      Tensor.dataAs_scalar, zip_map_rows, List.map_map]
    refine congrArg (fun l => Except.ok (Tensor.scalar .int64 l)) ?_
    refine List.map_congr_left fun r _ => ?_
    simp only [Function.comp_apply]
    rw [apply_cmp_float]

theorem compareScalar_column (op : CmpOp) (ha : ColumnOf rows f m a) {c : ℚ}
    (hint : m = true → ∃ n : Int, (n : ℚ) = c ∧ FitsInt64 n) :
    ∃ t, compareScalar op (.num c) a = .ok t ∧ ColumnOf rows (fun r => op.eval (f r) c) true t := by
  refine ⟨_, ?_, columnOf_mask fun r => op.holds (f r) c⟩
  cases ha with
  | float =>
    have hscalar : (Elem.ofDouble (Double.num c) : Except Exn Double) = .ok (.num c) := rfl
    simp only [compareScalar, hscalar, except_ok_bind, List.map_map]
    refine congrArg (fun l => Except.ok (Tensor.scalar .int64 l)) ?_
    refine List.map_congr_left fun r _ => ?_
    simp only [Function.comp_apply]
    rw [apply_cmp_float]
  | mask n hn =>
    obtain ⟨k, rfl, hk⟩ := hint rfl
    simp only [compareScalar, ofDouble_int64 hk, except_ok_bind, List.map_map]
    refine congrArg (fun l => Except.ok (Tensor.scalar .int64 l)) ?_
    refine List.map_congr_left fun r hr => ?_
    simp only [Function.comp_apply]
    rw [apply_cmp_int64 op (hn r hr).2 hk, (hn r hr).1]

theorem neg_column (libm : Libm) (ha : ColumnOf rows f m a)
    (hfit : m = true → FitsOver rows fun r => -f r) :
    ∃ t, unary libm .neg a = .ok t ∧ ColumnOf rows (fun r => -f r) m t := by
  cases ha with
  | float =>
    refine ⟨.scalar .float64 (rows.map fun r => Double.num (-f r)), ?_, .float⟩
    have hmap : (rows.map fun r => Double.num (f r)).mapM (fun x => Except.ok (-x)) =
        (.ok (rows.map fun r => Double.num (-f r)) : Except Exn (List Double)) := by
      rw [List.mapM_map]
      exact mapM_ok fun r _ => rfl
    simp only [unary, elementwiseUnary, Tensor.dtype, castTensor_self, except_ok_bind,
      Tensor.dataAs_scalar]
    exact congrArg (· >>= fun r => Except.ok (Tensor.scalar .float64 r)) hmap
  | mask n hn =>
    have hfit := hfit rfl
    refine ⟨.scalar .int64 (rows.map fun r => Int64.ofInt (-n r)), ?_, .mask _ fun r hr => ?_⟩
    · have hmap : (rows.map fun r => Int64.ofInt (n r)).mapM (fun x => Except.ok (-x)) =
          (.ok (rows.map fun r => Int64.ofInt (-n r)) : Except Exn (List Int64)) := by
        rw [List.mapM_map]
        exact mapM_ok fun r _ => by simp
      simp only [unary, elementwiseUnary, Tensor.dtype, castTensor_self, except_ok_bind,
        Tensor.dataAs_scalar]
      exact congrArg (· >>= fun r => Except.ok (Tensor.scalar .int64 r)) hmap
    · have hv : ((-n r : Int) : ℚ) = -f r := by
        rw [Int.cast_neg, (hn r hr).1]
      exact ⟨hv, fitsInt64_of_cast hv (hfit r hr)⟩

end

end Lark.Column.Exec
