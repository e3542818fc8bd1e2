import Lark.Column.Biz.DslSyntax
import Lark.Column.Exec.KernelValues

namespace Lark.Column.Biz.Dsl

open Lark.Base Lark.Toolkit.Dsl Lark.Column.Exec

abbrev Row : Type := String → ℚ

def BinOp.eval : BinOp → ℚ → ℚ → ℚ
  | arith op => op.eval
  | cmp op => op.eval

-- The dtype of a result: comparisons make int64 masks, division makes float64, and the other
-- operators keep int64 only when every column operand is a mask.
def BinOp.isMask (m : Bool) : BinOp → Bool
  | arith op => op ≠ .div && m
  | cmp _ => true

namespace Expr

def columns : Expr → List String
  | col name => [String.ofList name]
  | lit _ _ => []
  | neg e => e.columns
  | paren e => e.columns
  | bin _ l r => l.columns ++ r.columns

def hasColumn : Expr → Bool
  | col _ => true
  | lit _ _ => false
  | neg e => e.hasColumn
  | paren e => e.hasColumn
  | bin _ l r => l.hasColumn || r.hasColumn

def value : Expr → Row → ℚ
  | col name, r => r (String.ofList name)
  | lit int frac, _ => decimalValue int frac
  | neg e, r => -e.value r
  | paren e, r => e.value r
  | bin op a b, r => op.eval (a.value r) (b.value r)

def constant (e : Expr) : ℚ := e.value fun _ => 0

def isMask : Expr → Bool
  | col _ => false
  | lit _ _ => true
  | neg e => e.isMask
  | paren e => e.isMask
  | bin op l r => !(l.hasColumn || r.hasColumn) || op.isMask (l.isMask && r.isMask)

def NoZeroDivisor (rows : List Row) : Expr → Prop
  | col _ => True
  | lit _ _ => True
  | neg e => e.NoZeroDivisor rows
  | paren e => e.NoZeroDivisor rows
  | bin op a b => a.NoZeroDivisor rows ∧ b.NoZeroDivisor rows ∧
      (op = .arith .div → ∀ r ∈ rows, b.value r ≠ 0)

end Expr

-- What a scalar attribute can carry: an integer of 64 bits, or six fractional digits.
def Encodable (c : ℚ) : Prop :=
  (∃ n : Int, (n : ℚ) = c ∧ FitsInt64 n) ∨ ((c * 10 ^ 6).den = 1 ∧ inDoubleRange c = true ∧
    (⌊c⌋ : ℚ) ≠ c)

def FitsResult (rows : List Row) (op : BinOp) (m : Bool) (f g : Row → ℚ) : Prop :=
  ∀ o, op = .arith o → o ≠ .div → m = true → FitsOver rows fun r => o.eval (f r) (g r)

structure ScalarExact (rows : List Row) (op : BinOp) (m : Bool) (f : Row → ℚ) (c : ℚ) : Prop where
  encodable : Encodable c
  integral : op ≠ .arith .div → m = true → (⌊c⌋ : ℚ) = c
  fits : FitsResult rows op m f fun _ => c

structure Swappable (rows : List Row) (op : BinOp) (c : ℚ) (f : Row → ℚ) : Prop where
  eval : ∀ r ∈ rows, op.eval (f r) c = op.eval c (f r)
  divisor : op = .arith .div → ∀ r ∈ rows, c ≠ 0

def Expr.Exact (rows : List Row) : Expr → Prop
  | col _ => True
  | lit _ _ => True
  | neg e => e.Exact rows ∧
      (e.hasColumn = true → e.isMask = true → FitsOver rows fun r => -e.value r)
  | paren e => e.Exact rows
  | bin op l r => l.Exact rows ∧ r.Exact rows ∧
      match l.hasColumn, r.hasColumn with
      | false, false => True
      | true, true => FitsResult rows op (l.isMask && r.isMask) l.value r.value
      | true, false => ScalarExact rows op l.isMask l.value r.constant
      | false, true => ScalarExact rows op r.isMask r.value l.constant ∧
          Swappable rows op l.constant r.value

theorem value_constant {e : Expr} (h : e.hasColumn = false) (r : Row) : e.value r = e.constant := by
  induction e with
  | col name => simp [Expr.hasColumn] at h
  | lit int frac => rfl
  | neg e ih => exact congrArg Neg.neg (ih h)
  | paren e ih => exact ih h
  | bin op a b iha ihb =>
    obtain ⟨ha, hb⟩ : a.hasColumn = false ∧ b.hasColumn = false := by
      simpa [Expr.hasColumn] using h
    exact congrArg₂ op.eval (iha ha) (ihb hb)

theorem isMask_constant {e : Expr} (h : e.hasColumn = false) : e.isMask = true := by
  induction e with
  | col name => simp [Expr.hasColumn] at h
  | lit int frac => rfl
  | neg e ih => exact ih h
  | paren e ih => exact ih h
  | bin op a b _ _ =>
    have hab : (a.hasColumn || b.hasColumn) = false := h
    simp [Expr.isMask, hab]

theorem fold_num (op : BinOp) (x y : ℚ) :
    op.fold (.num x) (.num y) = .num (op.eval x y) := by
  rcases op with op | op
  · cases op with
    | add => rfl
    | sub => exact Double.num_sub x y
    | mul => rfl
    | div =>
      by_cases hy : y = 0
      · subst hy
        simp only [BinOp.fold, BinOp.eval, ArithOp.eval, div_zero]
        rfl
      · simp only [BinOp.fold, BinOp.eval, ArithOp.eval, Double.num_div _ _ hy]
        exact if_neg (by simpa [Double.eq, OfNat.ofNat] using hy)
  · simp only [BinOp.fold, BinOp.eval, CmpOp.eval]
    rw [apply_cmp_float]
    split_ifs <;> rfl

theorem inDoubleRange_fits {n : Int} (h : FitsInt64 n) : inDoubleRange n = true := by
  have hq : |(n : ℚ)| ≤ 2 ^ 63 := by exact_mod_cast abs_le.2 ⟨h.1, h.2.le⟩
  refine inDoubleRange_of_abs_le ?_ hq
  rcases eq_or_ne n 0 with rfl | hn
  · simp
  · have hone : (1 : ℚ) ≤ |(n : ℚ)| := by exact_mod_cast Int.one_le_abs hn
    exact .inr (le_trans (by norm_num) hone)

theorem format_encodable {c : ℚ} (h : Encodable c) :
    ∃ text, format (.num c) = .ok text ∧ stod text = .ok (.num c) := by
  rcases h with ⟨n, rfl, hn⟩ | ⟨hden, hrange, hfloor⟩
  · refine ⟨intToString n, ?_, stod_intToString (inDoubleRange_fits hn)⟩
    have hint : Double.toInt 64 (.num n) = some n := Double.toInt_intCast 64 hn
    simp [format, hint]
  · rw [← fixedValue_eq_iff] at hden
    refine ⟨fixedToString c, by simp [format, hfloor], ?_⟩
    rw [stod_fixedToString (by rw [hden]; exact hrange), hden]

theorem encodable_integral {c : ℚ} (h : Encodable c) (hc : (⌊c⌋ : ℚ) = c) :
    ∃ n : Int, (n : ℚ) = c ∧ FitsInt64 n := by
  rcases h with h | ⟨-, -, hne⟩
  · exact h
  · exact absurd hc hne

def runOps (libm : Libm) (specs : List OpSpec) (store : TensorStore) : Except Exn TensorStore :=
  specs.foldlM (fun store spec => do (← createOp spec).compute libm store) store

theorem ident_ne_tempName {name : List Char} (h : IsIdent name) (k : Nat) :
    String.ofList name ≠ tempName k := by
  obtain ⟨c, cs, rfl, hc⟩ := h.start
  intro he
  have hlist : c :: cs = '@' :: 't' :: (toString k).toList := by
    simpa [tempName] using congrArg String.toList he
  obtain rfl : c = '@' := (List.cons.inj hlist).1
  exact absurd hc (by decide)

def BinOp.kernel : BinOp → Kernel
  | arith op => .binaryArith op
  | cmp op => .compare op

def BinOp.scalarKernel (v : Double) : BinOp → Kernel
  | arith op => .scalarArith op v
  | cmp op => .compareScalar op v

theorem createOp_binary (op : BinOp) (inputs outputs : List String) :
    createOp ⟨op.baseName, inputs, outputs, []⟩ =
      .ok ⟨op.baseName, inputs, outputs, op.kernel⟩ := by
  rcases op with op | op <;> cases op <;> rfl

theorem createKernel_scalar (op : BinOp) (inputs outputs : List String) (text : String) :
    createKernel ⟨op.baseName ++ "_scalar", inputs, outputs, [("scalar", text)]⟩ =
      (stod text).map op.scalarKernel := by
  have hattr : ∀ type, OpSpec.attr? ⟨type, inputs, outputs, [("scalar", text)]⟩ "scalar" =
      some text := fun _ => rfl
  rcases op with op | op <;> cases op <;> cases h : stod text <;>
    simp [createKernel, createBinaryOp, createCompareOp, createUnaryOp, createReduceOp,
      binaryTypes, scalarTypes, unaryTypes, reduceTypes, compareTypes, compareScalarTypes,
      List.lookup_cons, List.lookup_nil, BinOp.baseName, hattr, h, BinOp.scalarKernel, Except.map]

theorem createOp_scalar_eq (op : BinOp) (inputs outputs : List String) (text : String) :
    createOp ⟨op.baseName ++ "_scalar", inputs, outputs, [("scalar", text)]⟩ =
      (stod text).map fun v => ⟨op.baseName ++ "_scalar", inputs, outputs, op.scalarKernel v⟩ := by
  rw [createOp, createKernel_scalar]
  cases stod text <;> rfl

theorem createOp_scalar (op : BinOp) (inputs outputs : List String) {text : String} {v : Double}
    (h : stod text = .ok v) :
    createOp ⟨op.baseName ++ "_scalar", inputs, outputs, [("scalar", text)]⟩ =
      .ok ⟨op.baseName ++ "_scalar", inputs, outputs, op.scalarKernel v⟩ := by
  rw [createOp_scalar_eq, h]
  rfl

theorem compute_kernel {libm : Libm} {op : Op} {store : TensorStore} {out : String} {t : Tensor}
    (hk : op.kernel ≠ .identity) (ho : op.outputs = [out])
    (hr : runKernel libm op.kernel (op.input store) = .ok t) :
    op.compute libm store = .ok (store.set out t) := by
  have hanchor : op.isAnchor = false := by simp [Op.isAnchor, hk]
  simp [Op.compute, hanchor, hr, Op.output, ho]

section

variable {libm : Libm} {rows : List Row} {f g : Row → ℚ} {m m' : Bool} {a b : Tensor}
  {input : Nat → Except Exn Tensor}

theorem runKernel_binary (op : BinOp) (ha : ColumnOf rows f m a) (hb : ColumnOf rows g m' b)
    (h₀ : input 0 = .ok a) (h₁ : input 1 = .ok b)
    (hdiv : op = .arith .div → ∀ r ∈ rows, g r ≠ 0)
    (hfit : FitsResult rows op (m && m') f g) :
    ∃ t, runKernel libm op.kernel input = .ok t ∧
      ColumnOf rows (fun r => op.eval (f r) (g r)) (op.isMask (m && m')) t := by
  rcases op with op | op
  · obtain ⟨t, ht, hc⟩ := binaryArith_columns op ha hb (fun h => hdiv (congrArg _ h))
      fun hne hm hm' => hfit op rfl hne (by simp [hm, hm'])
    refine ⟨t, by simpa [runKernel, BinOp.kernel, h₀, h₁] using ht, ?_⟩
    simpa [BinOp.isMask, BinOp.eval, Bool.and_assoc] using hc
  · obtain ⟨t, ht, hc⟩ := compare_columns op ha hb
    exact ⟨t, by simpa [runKernel, BinOp.kernel, h₀, h₁] using ht, hc⟩

theorem runKernel_scalar (op : BinOp) (ha : ColumnOf rows f m a) {c : ℚ} (h₀ : input 0 = .ok a)
    (hdiv : op = .arith .div → ∀ r ∈ rows, c ≠ 0) (hex : ScalarExact rows op m f c) :
    ∃ t, runKernel libm (op.scalarKernel (.num c)) input = .ok t ∧
      ColumnOf rows (fun r => op.eval (f r) c) (op.isMask m) t := by
  rcases op with op | op
  · obtain ⟨t, ht, hc⟩ := scalarArith_column op ha (fun h => hdiv (congrArg _ h))
      (fun hne hm => encodable_integral hex.encodable (hex.integral (by simpa using hne) hm))
      fun hne hm => hex.fits op rfl hne hm
    exact ⟨t, by simpa [runKernel, BinOp.scalarKernel, h₀] using ht, hc⟩
  · obtain ⟨t, ht, hc⟩ := compareScalar_column op ha fun hm =>
      encodable_integral hex.encodable (hex.integral (by simp) hm)
    exact ⟨t, by simpa [runKernel, BinOp.scalarKernel, h₀] using ht, hc⟩

end

structure Computes (libm : Libm) (rows : List Row) (st st' : ParserState)
    (store store' : TensorStore) (name : String) (f : Row → ℚ) (m : Bool) : Prop where
  tmp_le : st.tmp ≤ st'.tmp
  run : ∃ specs, st'.ops = st.ops ++ specs ∧ runOps libm specs store = .ok store'
  column : ∃ t, store'.find name = some t ∧ ColumnOf rows f m t
  frame : ∀ c, (∀ k, st.tmp ≤ k → k < st'.tmp → c ≠ tempName k) → store'.find c = store.find c
  source : ∀ k, st'.tmp ≤ k → name ≠ tempName k

namespace Computes

variable {libm : Libm} {rows : List Row} {st st₁ st₂ : ParserState}
  {store store₁ store₂ : TensorStore} {name name' : String} {f g : Row → ℚ} {m m' : Bool}

theorem emit {spec : OpSpec} {op : Op} {t : Tensor}
    (h : Computes libm rows st st₁ store store₁ name f m)
    (hspec : createOp spec = .ok op)
    (hop : op.compute libm store₁ = .ok (store₁.set (tempName st₁.tmp) t))
    (ht : ColumnOf rows g m' t) :
    Computes libm rows st (st₁.temp.2.emit spec) store (store₁.set (tempName st₁.tmp) t)
      (tempName st₁.tmp) g m' where
  tmp_le := Nat.le_succ_of_le h.tmp_le
  run := by
    obtain ⟨specs, hops, hrun⟩ := h.run
    refine ⟨specs ++ [spec], ?_, ?_⟩
    · simp [ParserState.emit, ParserState.temp, hops]
    · unfold runOps at hrun ⊢
      simp [List.foldlM_append, hrun, hspec, hop]
  column := ⟨t, by simp, ht⟩
  frame := by
    intro c hc
    have hne : c ≠ tempName st₁.tmp := hc st₁.tmp h.tmp_le (Nat.lt_succ_self _)
    rw [TensorStore.set_find_of_ne _ _ _ hne]
    exact h.frame c fun k hlo hhi => hc k hlo (Nat.lt_succ_of_lt hhi)
  source := by
    intro k hk he
    have hlt : st₁.tmp + 1 ≤ k := hk
    have := tempName_inj he
    omega

theorem trans (h₁ : Computes libm rows st st₁ store store₁ name f m)
    (h₂ : Computes libm rows st₁ st₂ store₁ store₂ name' g m') :
    Computes libm rows st st₂ store store₂ name' g m' where
  tmp_le := h₁.tmp_le.trans h₂.tmp_le
  run := by
    obtain ⟨specs₁, hops₁, hrun₁⟩ := h₁.run
    obtain ⟨specs₂, hops₂, hrun₂⟩ := h₂.run
    refine ⟨specs₁ ++ specs₂, by simp [hops₁, hops₂], ?_⟩
    unfold runOps at hrun₁ hrun₂ ⊢
    simp [List.foldlM_append, hrun₁, hrun₂]
  column := h₂.column
  frame := by
    intro c hc
    rw [h₂.frame c fun k hlo hhi => hc k (h₁.tmp_le.trans hlo) hhi]
    exact h₁.frame c fun k hlo hhi => hc k hlo (lt_of_lt_of_le hhi h₂.tmp_le)
  source := h₂.source

theorem find_kept (h₁ : Computes libm rows st st₁ store store₁ name f m)
    (h₂ : Computes libm rows st₁ st₂ store₁ store₂ name' g m') :
    store₂.find name = store₁.find name :=
  h₂.frame name fun k hlo _ => h₁.source k hlo

end Computes

theorem input_eq (op : Op) {store : TensorStore} {i : Nat} {name : String} {t : Tensor}
    (hi : op.inputs[i]? = some name) (ht : store.find name = some t) : op.input store i = .ok t := by
  simp [Op.input, hi, ht]

def HoldsColumns (store : TensorStore) (rows : List Row) (columns : List String) : Prop :=
  ∀ c ∈ columns, store.find c = some (.scalar .float64 (rows.map fun r => Double.num (r c)))

theorem columns_ident {e : Expr} (h : e.WellFormed) :
    ∀ c ∈ e.columns, ∃ name, c = String.ofList name ∧ IsIdent name := by
  induction e with
  | col name =>
    intro c hc
    exact ⟨name, by simpa [Expr.columns] using hc, h⟩
  | lit int frac => simp [Expr.columns]
  | neg e ih => exact ih h.1
  | paren e ih => exact ih h
  | bin op l r ihl ihr =>
    intro c hc
    rcases List.mem_append.1 hc with hc | hc
    · exact ihl h.1 c hc
    · exact ihr h.2.1 c hc

theorem holdsColumns_computes {e : Expr} {libm : Libm} {rows : List Row} {st st₁ : ParserState}
    {store store₁ : TensorStore} {name : String} {f : Row → ℚ} {m : Bool} (hwf : e.WellFormed)
    (hs : HoldsColumns store rows e.columns)
    (h : Computes libm rows st st₁ store store₁ name f m) : HoldsColumns store₁ rows e.columns := by
  intro c hc
  obtain ⟨ident, rfl, hi⟩ := columns_ident hwf c hc
  rw [h.frame _ fun k _ _ => ident_ne_tempName hi k]
  exact hs _ hc

def Compiles (libm : Libm) (rows : List Row) (e : Expr) : Prop :=
  ∀ (st : ParserState) (store : TensorStore), HoldsColumns store rows e.columns →
    (e.hasColumn = false → e.gen st = .ok (.literal (.num e.constant), st)) ∧
    (e.hasColumn = true → ∃ name st' store', e.gen st = .ok (.named name, st') ∧
      Computes libm rows st st' store store' name e.value e.isMask)

section

variable {libm : Libm} {rows : List Row}

theorem compiles_col {name : List Char} (h : IsIdent name) : Compiles libm rows (.col name) := by
  intro st store hs
  refine ⟨fun hc => by simp [Expr.hasColumn] at hc, fun _ => ?_⟩
  refine ⟨String.ofList name, st, store, rfl, ?_⟩
  exact {
    tmp_le := le_rfl
    run := ⟨[], by simp, rfl⟩
    column := ⟨_, hs _ (by simp [Expr.columns]), .float⟩
    frame := fun _ _ => rfl
    source := fun k _ => ident_ne_tempName h k }

theorem compiles_lit (int : List Char) (frac : Option (List Char)) :
    Compiles libm rows (.lit int frac) := by
  intro st store _
  exact ⟨fun _ => rfl, fun hc => by simp [Expr.hasColumn] at hc⟩

theorem compiles_neg {e : Expr} (he : Compiles libm rows e)
    (hfit : e.hasColumn = true → e.isMask = true → FitsOver rows fun r => -e.value r) :
    Compiles libm rows (.neg e) := by
  intro st store hs
  obtain ⟨hlit, hcol⟩ := he st store hs
  refine ⟨fun hc => ?_, fun hc => ?_⟩
  · have hg := hlit hc
    simp [Expr.gen, hg, makeNeg, Expr.constant, Expr.value]
  · obtain ⟨name, st₁, store₁, hg, hcomp⟩ := hcol hc
    obtain ⟨a, ha, hca⟩ := hcomp.column
    obtain ⟨t, ht, hct⟩ := neg_column libm hca (hfit hc)
    refine ⟨tempName st₁.tmp, st₁.temp.2.emit ⟨"neg", [name], [tempName st₁.tmp], []⟩,
      store₁.set (tempName st₁.tmp) t, ?_, ?_⟩
    · simp only [Expr.gen, hg, except_ok_bind]
      rfl
    · refine hcomp.emit rfl ?_ hct
      refine compute_kernel (by simp) rfl ?_
      have hin := input_eq ⟨"neg", [name], [tempName st₁.tmp], .unary .neg⟩ (i := 0) rfl ha
      simpa [runKernel, hin] using ht

theorem computes_scalar {st st₁ : ParserState} {store store₁ : TensorStore} {name : String}
    {f : Row → ℚ} {m : Bool} {op : BinOp} {c : ℚ}
    (h : Computes libm rows st st₁ store store₁ name f m)
    (hdiv : op = .arith .div → ∀ r ∈ rows, c ≠ 0) (hex : ScalarExact rows op m f c) :
    ∃ text st₂ store₂, format (.num c) = .ok text ∧
      st₂ = st₁.temp.2.emit
        ⟨op.baseName ++ "_scalar", [name], [tempName st₁.tmp], [("scalar", text)]⟩ ∧
      Computes libm rows st st₂ store store₂ (tempName st₁.tmp) (fun r => op.eval (f r) c)
        (op.isMask m) := by
  obtain ⟨text, hformat, hstod⟩ := format_encodable hex.encodable
  obtain ⟨a, ha, hca⟩ := h.column
  have hspec := createOp_scalar op [name] [tempName st₁.tmp] hstod
  obtain ⟨t, ht, hct⟩ := runKernel_scalar op hca
    (input_eq ⟨op.baseName ++ "_scalar", [name], [tempName st₁.tmp], op.scalarKernel (.num c)⟩
      (i := 0) rfl ha) hdiv hex
  refine ⟨text, _, store₁.set (tempName st₁.tmp) t, hformat, rfl, h.emit hspec ?_ hct⟩
  exact compute_kernel (by cases op <;> simp [BinOp.scalarKernel]) rfl ht

theorem computes_binary {st st₁ st₂ : ParserState} {store store₁ store₂ : TensorStore}
    {a b : String} {f g : Row → ℚ} {m m' : Bool} {op : BinOp}
    (h₁ : Computes libm rows st st₁ store store₁ a f m)
    (h₂ : Computes libm rows st₁ st₂ store₁ store₂ b g m')
    (hdiv : op = .arith .div → ∀ r ∈ rows, g r ≠ 0)
    (hfit : FitsResult rows op (m && m') f g) :
    ∃ store₃, Computes libm rows st
      (st₂.temp.2.emit ⟨op.baseName, [a, b], [tempName st₂.tmp], []⟩) store store₃
      (tempName st₂.tmp) (fun r => op.eval (f r) (g r)) (op.isMask (m && m')) := by
  obtain ⟨ta, hta, hca⟩ := h₁.column
  obtain ⟨tb, htb, hcb⟩ := h₂.column
  rw [← h₁.find_kept h₂] at hta
  have hspec := createOp_binary op [a, b] [tempName st₂.tmp]
  obtain ⟨t, ht, hct⟩ := runKernel_binary op hca hcb
    (input_eq ⟨op.baseName, [a, b], [tempName st₂.tmp], op.kernel⟩ (i := 0) rfl hta)
    (input_eq ⟨op.baseName, [a, b], [tempName st₂.tmp], op.kernel⟩ (i := 1) rfl htb) hdiv hfit
  refine ⟨store₂.set (tempName st₂.tmp) t, (h₁.trans h₂).emit hspec ?_ hct⟩
  exact compute_kernel (by cases op <;> simp [BinOp.kernel]) rfl ht

theorem Computes.congr {st st' : ParserState} {store store' : TensorStore} {name : String}
    {f g : Row → ℚ} {m m' : Bool} (h : Computes libm rows st st' store store' name f m)
    (hfg : ∀ r ∈ rows, f r = g r) (hm : m = m') :
    Computes libm rows st st' store store' name g m' := by
  subst hm
  obtain ⟨t, ht, hc⟩ := h.column
  exact { h with column := ⟨t, ht, columnOf_congr hc hfg⟩ }

theorem compiles_bin {op : BinOp} {l r : Expr} (hwr : r.WellFormed)
    (hl : Compiles libm rows l) (hr : Compiles libm rows r)
    (hdiv : op = .arith .div → ∀ row ∈ rows, r.value row ≠ 0)
    (hex : (Expr.bin op l r).Exact rows) : Compiles libm rows (.bin op l r) := by
  intro st store hs
  have hsl : HoldsColumns store rows l.columns := fun c hc => hs c (List.mem_append_left _ hc)
  have hsr : HoldsColumns store rows r.columns := fun c hc => hs c (List.mem_append_right _ hc)
  obtain ⟨hllit, hlcol⟩ := hl st store hsl
  obtain ⟨-, -, hex⟩ := hex
  cases hcl : l.hasColumn with
  | false =>
    have hgl := hllit hcl
    cases hcr : r.hasColumn with
    | false =>
      have hgr := (hr st store hsr).1 hcr
      refine ⟨fun _ => ?_, fun hc => by simp [Expr.hasColumn, hcl, hcr] at hc⟩
      simp only [Expr.gen, hgl, hgr, except_ok_bind, makeBinary, fold_num]
      rfl
    | true =>
      refine ⟨fun hc => by simp [Expr.hasColumn, hcl, hcr] at hc, fun _ => ?_⟩
      obtain ⟨name, st₁, store₁, hgr, hcomp⟩ := (hr st store hsr).2 hcr
      simp only [hcl, hcr] at hex
      obtain ⟨hscalar, hswap⟩ := hex
      obtain ⟨text, st₂, store₂, hformat, rfl, hcomp₂⟩ :=
        computes_scalar hcomp hswap.divisor hscalar
      refine ⟨_, _, store₂, ?_, hcomp₂.congr (fun row hrow => ?_) ?_⟩
      · simp only [Expr.gen, hgl, hgr, except_ok_bind, makeBinary, hformat]
        rfl
      · rw [hswap.eval row hrow, Expr.value, value_constant hcl]
      · simp [Expr.isMask, hcr, isMask_constant hcl]
  | true =>
    obtain ⟨name, st₁, store₁, hgl, hcomp⟩ := hlcol hcl
    refine ⟨fun hc => by simp [Expr.hasColumn, hcl] at hc, fun _ => ?_⟩
    have hsr₁ := holdsColumns_computes hwr hsr hcomp
    cases hcr : r.hasColumn with
    | false =>
      have hgr := (hr st₁ store₁ hsr₁).1 hcr
      simp only [hcl, hcr] at hex
      obtain ⟨text, st₂, store₂, hformat, rfl, hcomp₂⟩ := computes_scalar hcomp
        (fun hop row hrow => value_constant hcr row ▸ hdiv hop row hrow) hex
      refine ⟨_, _, store₂, ?_, hcomp₂.congr (fun row hrow => ?_) ?_⟩
      · simp only [Expr.gen, hgl, hgr, except_ok_bind, makeBinary, hformat]
        rfl
      · rw [Expr.value, value_constant hcr]
      · simp [Expr.isMask, hcl, isMask_constant hcr]
    | true =>
      obtain ⟨name', st₂, store₂, hgr, hcomp'⟩ := (hr st₁ store₁ hsr₁).2 hcr
      simp only [hcl, hcr] at hex
      obtain ⟨store₃, hcomp₃⟩ := computes_binary hcomp hcomp' hdiv hex
      refine ⟨_, _, store₃, ?_, hcomp₃.congr (fun row hrow => rfl) ?_⟩
      · simp only [Expr.gen, hgl, hgr, except_ok_bind, makeBinary]
        rfl
      · simp [Expr.isMask, hcl]

theorem compiles {e : Expr} (hwf : e.WellFormed) (hdiv : e.NoZeroDivisor rows)
    (hex : e.Exact rows) : Compiles libm rows e := by
  induction e with
  | col name => exact compiles_col hwf
  | lit int frac => exact compiles_lit int frac
  | neg e ih => exact compiles_neg (ih hwf.1 hdiv hex.1) hex.2
  | paren e ih => exact ih hwf hdiv hex
  | bin op l r ihl ihr =>
    exact compiles_bin hwf.2.1 (ihl hwf.1 hdiv.1 hex.1) (ihr hwf.2.1 hdiv.2.1 hex.2.1)
      hdiv.2.2 hex

theorem runOps_assign {v name : String} {st st' : ParserState} {store store' : TensorStore}
    {f : Row → ℚ} {m : Bool} (h : Computes libm rows st st' store store' name f m) :
    ∃ st₁ specs store₁ t, assign v (.named name) st' = .ok st₁ ∧ st₁.ops = st.ops ++ specs ∧
      runOps libm specs store = .ok store₁ ∧ store₁.find v = some t ∧ ColumnOf rows f m t := by
  obtain ⟨specs, hops, hrun⟩ := h.run
  obtain ⟨t, ht, hc⟩ := h.column
  by_cases hv : name = v
  · subst hv
    exact ⟨st', specs, store', t, by simp [assign], hops, hrun, ht, hc⟩
  · have hcreate : createOp ⟨"identity", [name], [v], []⟩ =
        .ok ⟨"identity", [name], [v], .identity⟩ := rfl
    have hin := input_eq ⟨"identity", [name], [v], .identity⟩ (i := 0) rfl ht
    have hcompute : Op.compute libm ⟨"identity", [name], [v], .identity⟩ store' =
        .ok (store'.set v t) := by
      simp [Op.compute, Op.isAnchor, hv, runKernel, hin, Op.output]
    refine ⟨st'.emit ⟨"identity", [name], [v], []⟩, specs ++ [⟨"identity", [name], [v], []⟩],
      store'.set v t, t, by simp [assign, hv], by simp [ParserState.emit, hops], ?_, by simp, hc⟩
    unfold runOps at hrun ⊢
    simp [List.foldlM_append, hrun, hcreate, hcompute]

theorem parse_preserves_meaning (libm : Libm) {v : List Char} {e : Expr} {source : List Char}
    {store : TensorStore} (rows : List Row) (hv : IsIdent v) (he : e.WellFormed)
    (hcol : e.hasColumn = true) (hs : Renders ((statementToks v e).map Tok.text) source)
    (hstore : HoldsColumns store rows e.columns) (hdiv : e.NoZeroDivisor rows)
    (hr : e.InRange) (hex : e.Exact rows) :
    ∃ specs store' t, parse (String.ofList source) = .ok specs ∧
      runOps libm specs store = .ok store' ∧ store'.find (String.ofList v) = some t ∧
      ColumnOf rows e.value e.isMask t := by
  obtain ⟨name, st, store₁, hg, hcomp⟩ := (compiles he hdiv hex
    ⟨.make (String.ofList source) exprSymbols exprMulti, [], 0⟩ store hstore).2 hcol
  obtain ⟨st₁, specs, store₂, t, hassign, hops, hrun, ht, hc⟩ := runOps_assign hcomp
  refine ⟨specs, store₂, t, ?_, hrun, ht, hc⟩
  rw [parse_statement hv he hr hs hg hassign, hops, List.nil_append]

end

def exactLibm : Libm := ⟨id, id, id⟩

def rowOf (x : ℚ) : Row := fun c => if c = "x" then x else 0

def storeOf (rows : List Row) : TensorStore :=
  TensorStore.empty.set "x" (.scalar .float64 (rows.map fun r => Double.num (r "x")))

theorem holdsColumns_storeOf (rows : List Row) : HoldsColumns (storeOf rows) rows ["x"] := by
  intro c hc
  obtain rfl : c = "x" := by simpa using hc
  simp [storeOf]

def affine : Expr :=
  .bin (.arith .add) (.bin (.arith .mul) (.lit ['2'] none) (.col ['x'])) (.lit ['0'] (some ['5']))

theorem fitsResult_float {rows : List Row} (op : BinOp) (f g : Row → ℚ) :
    FitsResult rows op false f g := by
  intro o _ _ hm
  exact absurd hm (by decide)

theorem affine_exact (rows : List Row) : affine.Exact rows := by
  refine ⟨⟨trivial, trivial, ?_⟩, trivial, ?_⟩
  · refine ⟨⟨.inl ⟨2, by decide +kernel, by unfold FitsInt64; decide⟩,
      fun _ hm => absurd hm (by decide), fitsResult_float _ _ _⟩,
      ⟨fun r _ => mul_comm _ _, fun hop => absurd hop (by decide)⟩⟩
  · refine ⟨.inr ?_, fun _ hm => absurd hm (by decide), fitsResult_float _ _ _⟩
    decide +kernel

theorem affine_inRange : affine.InRange := by
  refine ⟨⟨?_, trivial⟩, ?_⟩
  · show inDoubleRange (decimalValue ['2'] none) = true
    decide +kernel
  · show inDoubleRange (decimalValue ['0'] (some ['5'])) = true
    decide +kernel

theorem renders_affine : Renders ((statementToks ['v'] affine).map Tok.text)
    ['v', ' ', '=', '2', '*', 'x', '+', ' ', '0', '.', '5'] := by
  refine .tok (g := []) .nil (.tok (g := [' ']) (.space rfl .nil) (.tok (g := []) .nil
    (.tok (g := []) .nil (.tok (g := []) .nil (.tok (g := []) .nil (.tok (g := [' '])
      (.space rfl .nil) (.done (.gap .nil))))))))

theorem isDecimal_of_all {ds : List Char} {frac : Option (List Char)}
    (hd : ds.all Char.isDigit = true) (hf : (frac.getD []).all Char.isDigit = true)
    (hn : ds ≠ []) : IsDecimal ds frac :=
  ⟨List.all_eq_true.1 hd, List.all_eq_true.1 hf, .inl hn⟩

theorem affine_wellFormed : affine.WellFormed := by
  refine ⟨⟨isDecimal_of_all rfl rfl (by simp), isIdent_letter rfl, ?_, ?_⟩,
    isDecimal_of_all rfl rfl (by simp), ?_, ?_⟩
  all_goals decide

theorem parse_preserves_meaning_affine :
    ∃ specs store' t, parse "v =2*x+ 0.5" = .ok specs ∧
      runOps exactLibm specs (storeOf [rowOf 1, rowOf 5]) = .ok store' ∧
      store'.find "v" = some t ∧ ColumnOf [rowOf 1, rowOf 5] affine.value affine.isMask t :=
  parse_preserves_meaning exactLibm [rowOf 1, rowOf 5] (isIdent_letter rfl) affine_wellFormed rfl
    renders_affine (holdsColumns_storeOf _) ⟨⟨trivial, trivial, by simp⟩, trivial, by simp⟩
    affine_inRange (affine_exact _)

def reversed : Expr := .bin (.arith .sub) (.lit ['2'] none) (.col ['x'])

theorem renders_reversed : Renders ((statementToks ['v'] reversed).map Tok.text)
    ['v', ' ', '=', ' ', '2', ' ', '-', ' ', 'x'] := by
  refine .tok (g := []) .nil (.tok (g := [' ']) (.space rfl .nil) (.tok (g := [' '])
    (.space rfl .nil) (.tok (g := [' ']) (.space rfl .nil) (.tok (g := [' ']) (.space rfl .nil)
      (.done (.gap .nil))))))

theorem reversed_result :
    (parse "v = 2 - x" >>= fun specs => runOps exactLibm specs (storeOf [rowOf 5]) >>=
      fun store => .ok (store.find "v")) = .ok (some (.scalar .float64 [.num 3])) := by
  decide +kernel

-- With x = 5 the statement asks for -3.
theorem parse_reverses_literal_minus :
    reversed.WellFormed ∧ reversed.InRange ∧ reversed.NoZeroDivisor [rowOf 5] ∧
      HoldsColumns (storeOf [rowOf 5]) [rowOf 5] reversed.columns ∧
      Renders ((statementToks ['v'] reversed).map Tok.text) "v = 2 - x".toList ∧
      ¬ ∃ specs store' t m, parse "v = 2 - x" = .ok specs ∧
        runOps exactLibm specs (storeOf [rowOf 5]) = .ok store' ∧
        store'.find "v" = some t ∧ ColumnOf [rowOf 5] reversed.value m t := by
  refine ⟨⟨isDecimal_of_all rfl rfl (by simp), isIdent_letter rfl, by decide, by decide⟩,
    ⟨affine_inRange.1.1, trivial⟩, ⟨trivial, trivial, by simp⟩, holdsColumns_storeOf _,
    renders_reversed, ?_⟩
  rintro ⟨specs, store', t, m, hparse, hrun, ht, hc⟩
  have hresult := reversed_result
  rw [hparse, except_ok_bind, hrun, except_ok_bind, ht] at hresult
  obtain rfl : t = .scalar .float64 [.num 3] := by simpa using hresult
  generalize hdata : Tensor.scalar .float64 [.num 3] = t at hc
  cases hc with
  | float =>
    have hval : Double.num 3 = Double.num (reversed.value (rowOf 5)) := by simpa using hdata
    exact absurd hval (by decide +kernel)
  | mask g hg => simp at hdata

end Lark.Column.Biz.Dsl
