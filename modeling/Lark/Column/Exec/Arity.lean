import Lark.Column.Exec.Execution

namespace Lark.Column.Exec

open Lark.Base

inductive Fault where
  | index
  | thrown (e : Exn)

def throwing {α : Type} : Except Exn α → Except Fault α
  | .ok a => .ok a
  | .error e => .error (.thrown e)

-- The statements before ctx.set is called, and the expression it is given as the value.
def prepareKernel (libm : Libm) (a : Nat → Tensor) : Kernel → Except Exn (Except Exn Tensor)
  | .binaryArith op => (binaryArith op (a 0) (a 1)).map .ok
  | .scalarArith op scalar => (scalarArith op scalar (a 0)).map .ok
  | .unary kind => .ok (unary libm kind (a 0))
  | .reduce .mean => (reduce libm .mean (a 0)).map .ok
  | .reduce .stddev => (reduce libm .stddev (a 0)).map .ok
  | .reduce kind => .ok (reduce libm kind (a 0))
  | .compare kind => (compare kind (a 0) (a 1)).map .ok
  | .compareScalar kind scalar => (compareScalar kind scalar (a 0)).map .ok
  | .select => (select (a 0) (a 1) (a 2)).map .ok
  | .filter => (filter (a 0) (a 1)).map .ok
  | .cast dtype => .ok (castTensor (a 0) dtype)
  | .quantize =>
    if (a 0).dtype.isFloat then .ok (a 0).quantizeQ8_0
    else .error (.runtimeError "quantize: input must be a float tensor")
  | .dequantize =>
    if (a 0).dtype.isQuantized then .ok (a 0).dequantize
    else .error (.runtimeError "dequantize: input must be a q8_0 tensor")
  | .dot => (dot (a 0) (a 1)).map .ok
  | .const value dtype size => do
    let dtype ← parseDtype dtype
    let size ← stoull size
    .ok (buildConst value dtype size)
  | .identity => .ok (.ok (a 0))

namespace Op

def inputName (op : Op) (i : Nat) : Except Fault String :=
  match op.inputs[i]? with
  | some name => .ok name
  | none => .error .index

def outputName (op : Op) : Except Fault String :=
  match op.outputs[0]? with
  | some name => .ok name
  | none => .error .index

def readInput (op : Op) (store : TensorStore) (i : Nat) : Except Fault Tensor := do
  let name ← op.inputName i
  match store.find name with
  | some t => .ok t
  | none => .error (.thrown (.outOfRange ("OpContext::input: unknown tensor '" ++ name ++ "'")))

-- The arguments of ctx.set are evaluated in either order: `early` takes the output's name first.
def setOutput (early : Bool) (op : Op) (store : TensorStore) (value : Except Exn Tensor) :
    Except Fault TensorStore :=
  if early then do
    let name ← op.outputName
    let t ← throwing value
    .ok (store.set name t)
  else do
    let t ← throwing value
    let name ← op.outputName
    .ok (store.set name t)

def apply (early : Bool) (libm : Libm) (op : Op) (store : TensorStore) :
    Except Fault TensorStore := do
  let args ← (List.range op.kernel.arity).mapM (op.readInput store)
  let value ← throwing (prepareKernel libm (fun i => args.getD i .empty) op.kernel)
  op.setOutput early store value

-- IdentityOp compares the two names before it reads anything.
def run (early : Bool) (libm : Libm) (op : Op) (store : TensorStore) :
    Except Fault TensorStore :=
  if op.kernel = .identity then do
    let source ← op.inputName 0
    let target ← op.outputName
    if source = target then .ok store else op.apply early libm store
  else op.apply early libm store

def IndexSafe (op : Op) : Prop :=
  ∀ early libm store, op.run early libm store ≠ .error .index

end Op

theorem prepareKernel_congr (libm : Libm) (k : Kernel) {a a' : Nat → Tensor}
    (h : ∀ i < k.arity, a i = a' i) : prepareKernel libm a k = prepareKernel libm a' k := by
  cases k with
  | select => simp only [prepareKernel, h 0 (by decide), h 1 (by decide), h 2 (by decide)]
  | const value dtype size => rfl
  | binaryArith op =>
    simp only [prepareKernel, h 0 (by simp [Kernel.arity]), h 1 (by simp [Kernel.arity])]
  | compare op =>
    simp only [prepareKernel, h 0 (by simp [Kernel.arity]), h 1 (by simp [Kernel.arity])]
  | filter => simp only [prepareKernel, h 0 (by decide), h 1 (by decide)]
  | dot => simp only [prepareKernel, h 0 (by decide), h 1 (by decide)]
  | reduce kind => cases kind <;> simp only [prepareKernel, h 0 (by simp [Kernel.arity])]
  | _ => simp only [prepareKernel, h 0 (by simp [Kernel.arity])]

theorem runKernel_prepare (libm : Libm) (k : Kernel) (a : Nat → Tensor) :
    (runKernel libm k fun i => .ok (a i)) = prepareKernel libm a k >>= id := by
  have hmap (x : Except Exn Tensor) : x = x.map Except.ok >>= id := by
    cases x <;> rfl
  cases k with
  | reduce kind =>
    cases kind with
    | mean => exact hmap _
    | stddev => exact hmap _
    | _ => rfl
  | quantize =>
    simp only [runKernel, prepareKernel, quantize, except_ok_bind]
    split_ifs <;> rfl
  | dequantize =>
    simp only [runKernel, prepareKernel, dequantize, except_ok_bind]
    split_ifs <;> rfl
  | const value dtype size =>
    simp only [runKernel, prepareKernel, bind_assoc, except_ok_bind, id]
  | unary kind => rfl
  | cast dtype => rfl
  | identity => rfl
  | _ => exact hmap _

section Reads

variable {op : Op} {store : TensorStore}

theorem readInput_eq_ok {i : Nat} {t : Tensor} :
    op.readInput store i = .ok t ↔ op.input store i = .ok t := by
  unfold Op.readInput Op.inputName Op.input
  cases op.inputs[i]? with
  | none => simp
  | some name =>
    cases hfind : store.find name with
    | none => simp [hfind]
    | some t' => simp [hfind]

theorem readInput_index {i : Nat} : op.readInput store i = .error .index ↔ op.inputs.length ≤ i := by
  unfold Op.readInput Op.inputName
  cases hi : op.inputs[i]? with
  | none => simpa using List.getElem?_eq_none_iff.mp hi
  | some name =>
    have hlt : i < op.inputs.length := (List.getElem?_eq_some_iff.mp hi).1
    cases hfind : store.find name with
    | none => simp [hfind, hlt]
    | some t => simp [hfind, hlt]

theorem setOutput_eq_ok {early : Bool} {value : Except Exn Tensor} {s : TensorStore} :
    op.setOutput early store value = .ok s ↔ (value >>= op.output store) = .ok s := by
  unfold Op.setOutput Op.outputName Op.output
  cases early <;> cases value <;> cases op.outputs[0]? <;> simp [throwing]

theorem args_eq_ok {a : Nat → Tensor} (h : ∀ i < op.kernel.arity, op.input store i = .ok (a i)) :
    (List.range op.kernel.arity).mapM (op.readInput store) =
      .ok ((List.range op.kernel.arity).map a) := by
  refine mapM_ok fun i hi => ?_
  exact readInput_eq_ok.mpr (h i (List.mem_range.mp hi))

theorem prepare_args (libm : Libm) (k : Kernel) (a : Nat → Tensor) :
    prepareKernel libm (fun i => ((List.range k.arity).map a).getD i .empty) k =
      prepareKernel libm a k := by
  apply prepareKernel_congr
  intro i hi
  simp [List.getD_eq_getElem?_getD, hi]

theorem apply_eq_ok {early : Bool} {libm : Libm} {s : TensorStore} :
    op.apply early libm store = .ok s ↔
      (runKernel libm op.kernel (op.input store) >>= op.output store) = .ok s := by
  by_cases hall : ∀ i < op.kernel.arity, ∃ t, op.input store i = .ok t
  · have : Nonempty Tensor := ⟨.empty⟩
    choose! a ha using hall
    have hrun : runKernel libm op.kernel (op.input store) = prepareKernel libm a op.kernel >>= id :=
      (runKernel_congr libm op.kernel ha).trans (runKernel_prepare libm op.kernel a)
    rw [Op.apply, args_eq_ok ha, except_ok_bind, prepare_args, hrun]
    cases prepareKernel libm a op.kernel with
    | error e => simp [throwing]
    | ok value => exact setOutput_eq_ok
  · push Not at hall
    obtain ⟨i, hi, hno⟩ := hall
    obtain ⟨e, he⟩ : ∃ e, op.input store i = .error e := by
      cases hin : op.input store i with
      | error e => exact ⟨e, rfl⟩
      | ok t => exact absurd hin (hno t)
    obtain ⟨e', hfail⟩ := runKernel_error libm op.kernel hi he
    rw [hfail]
    constructor
    · intro hs
      obtain ⟨args, hargs, -⟩ := except_bind_eq_ok.mp hs
      obtain ⟨t, -, ht⟩ := getElem?_mapM hargs (List.getElem?_range hi)
      exact absurd (readInput_eq_ok.mp ht) (hno t)
    · intro hs
      cases hs

theorem run_eq_ok {early : Bool} {libm : Libm} {s : TensorStore} :
    op.run early libm store = .ok s ↔ op.compute libm store = .ok s := by
  by_cases hid : op.kernel = .identity
  · rw [Op.run, if_pos hid, Op.compute]
    cases hin : op.inputs with
    | nil => simp [hid, hin, Op.isAnchor, Op.inputName, Op.input, runKernel]
    | cons source inputs =>
      cases hout : op.outputs with
      | nil =>
        have hfail : op.isAnchor = false := by simp [Op.isAnchor, hin, hout]
        have hoff (x : Except Exn Tensor) : (x >>= op.output store) ≠ .ok s := by
          cases x <;> simp [Op.output, hout]
        simp [hin, hout, Op.inputName, Op.outputName, hfail, hoff]
      | cons target outputs =>
        simp only [hin, hout, Op.inputName, Op.outputName, List.getElem?_cons_zero,
          except_ok_bind, Op.isAnchor, hid, List.head?_cons, decide_true, Bool.true_and,
          Option.isSome_some, Option.some.injEq, decide_eq_true_eq]
        split_ifs with heq
        · simp
        · exact hid ▸ apply_eq_ok
  · have hanchor : op.isAnchor = false := by simp [Op.isAnchor, hid]
    rw [Op.run, if_neg hid, Op.compute, if_neg (by simp [hanchor])]
    exact apply_eq_ok

end Reads

-- A const whose dtype or size text does not parse throws before it names its output.
def Kernel.StopsEarly : Kernel → Prop
  | .const _ dtype size => (∀ d, parseDtype dtype ≠ .ok d) ∨ ∀ n, stoull size ≠ .ok n
  | _ => False

structure Op.Covered (op : Op) : Prop where
  inputs : op.kernel.arity ≤ op.inputs.length
  outputs : op.outputs ≠ [] ∨ op.kernel.StopsEarly

section Safety

variable {op : Op} {store : TensorStore} {libm : Libm} {early : Bool}

theorem setOutput_ne_index (h : op.outputs ≠ []) (value : Except Exn Tensor) :
    op.setOutput early store value ≠ .error .index := by
  obtain ⟨name, outputs, hout⟩ := List.exists_cons_of_ne_nil h
  cases early <;> cases value <;> simp [Op.setOutput, Op.outputName, hout, throwing]

theorem args_ne_index (h : op.kernel.arity ≤ op.inputs.length) :
    (List.range op.kernel.arity).mapM (op.readInput store) ≠ .error .index := by
  intro herr
  obtain ⟨i, hi, hindex⟩ := exists_of_mapM_error herr
  have hle := readInput_index.mp hindex
  have hlt := List.mem_range.mp hi
  omega

theorem prepare_stops (libm : Libm) {k : Kernel} (h : k.StopsEarly) (a : Nat → Tensor) :
    ∃ e, prepareKernel libm a k = .error e := by
  cases k with
  | const value dtype size =>
    rw [prepareKernel]
    cases hd : parseDtype dtype with
    | error e => exact ⟨e, rfl⟩
    | ok d =>
      rcases h with h | h
      · exact absurd hd (h d)
      · cases hs : stoull size with
        | error e => exact ⟨e, rfl⟩
        | ok n => exact absurd hs (h n)
  | _ => exact h.elim

theorem apply_ne_index (h : op.Covered) : op.apply early libm store ≠ .error .index := by
  rw [Op.apply]
  cases hargs : (List.range op.kernel.arity).mapM (op.readInput store) with
  | error e =>
    intro herr
    obtain rfl : e = .index := Except.error.inj herr
    exact args_ne_index h.inputs hargs
  | ok args =>
    rw [except_ok_bind]
    cases hvalue : prepareKernel libm (fun i => args.getD i .empty) op.kernel with
    | error e => simp [throwing]
    | ok value =>
      rcases h.outputs with hout | hstop
      · exact setOutput_ne_index hout value
      · obtain ⟨e, he⟩ := prepare_stops libm hstop fun i => args.getD i .empty
        rw [hvalue] at he
        cases he

theorem run_ne_index (h : op.Covered) : op.run early libm store ≠ .error .index := by
  unfold Op.run
  split_ifs with hid
  · have hin : op.inputs ≠ [] := by
      intro hnil
      have := h.inputs
      simp [hid, hnil, Kernel.arity] at this
    have hout : op.outputs ≠ [] := h.outputs.resolve_right (by simp [hid, Kernel.StopsEarly])
    obtain ⟨source, inputs, hin⟩ := List.exists_cons_of_ne_nil hin
    obtain ⟨target, outputs, hout⟩ := List.exists_cons_of_ne_nil hout
    simp only [Op.inputName, Op.outputName, hin, hout, List.getElem?_cons_zero, except_ok_bind]
    split_ifs
    · simp
    · exact apply_ne_index h
  · exact apply_ne_index h

end Safety

section Failing

def uniformStore (names : List String) (t : Tensor) : TensorStore :=
  names.foldl (fun store name => store.set name t) .empty

theorem uniformStore_find {names : List String} {t : Tensor} {c : String} (h : c ∈ names) :
    (uniformStore names t).find c = some t := by
  have hfold : ∀ (names : List String) (store : TensorStore),
      c ∈ names ∨ store.find c = some t →
        (names.foldl (fun store name => store.set name t) store).find c = some t := by
    intro names
    induction names with
    | nil => simp
    | cons name names ih =>
      intro store h
      refine ih _ ?_
      by_cases hname : c = name
      · exact .inr (by simp [hname])
      · rcases h with h | h
        · exact .inl (by simpa [hname] using h)
        · exact .inr (by simpa [hname] using h)
  exact hfold names .empty (.inl h)

variable {op : Op} {libm : Libm}

theorem readInput_uniform {t : Tensor} {i : Nat} (h : i < op.inputs.length) :
    op.readInput (uniformStore op.inputs t) i = .ok t := by
  have hfind := uniformStore_find (t := t) (List.getElem_mem h)
  simp [Op.readInput, Op.inputName, h, hfind]

theorem run_missing_input (h : op.inputs.length < op.kernel.arity) (early : Bool) (t : Tensor) :
    op.run early libm (uniformStore op.inputs t) = .error .index := by
  have hargs : (List.range op.kernel.arity).mapM (op.readInput (uniformStore op.inputs t)) =
      .error .index :=
    mapM_range_error (fun i hi => ⟨t, readInput_uniform hi⟩) (readInput_index.mpr le_rfl) h
  unfold Op.run
  split_ifs with hid
  · have hnil : op.inputs = [] := by
      rw [hid, Kernel.arity] at h
      exact List.length_eq_zero_iff.mp (by omega)
    simp [Op.inputName, hnil]
  · rw [Op.apply, hargs]
    rfl

def sampleInput : Kernel → Tensor
  | .select | .filter => .scalar .int64 []
  | .dequantize | .dot => .q8_0 0 []
  | _ => .scalar .float64 []

theorem prepare_sample (libm : Libm) {k : Kernel} (h : ¬ k.StopsEarly) :
    ∃ value, prepareKernel libm (fun _ => sampleInput k) k = .ok value := by
  cases k with
  | binaryArith op => cases op <;> exact ⟨_, rfl⟩
  | scalarArith op scalar => cases op <;> exact ⟨_, rfl⟩
  | reduce kind => cases kind <;> exact ⟨_, rfl⟩
  | compare kind => exact ⟨_, rfl⟩
  | compareScalar kind scalar => exact ⟨_, rfl⟩
  | const value dtype size =>
    simp only [Kernel.StopsEarly, not_or, not_forall, not_not] at h
    obtain ⟨⟨d, hd⟩, n, hn⟩ := h
    exact ⟨buildConst value d n, by simp [prepareKernel, hd, hn]⟩
  | _ => exact ⟨_, rfl⟩

theorem run_missing_output (hin : op.kernel.arity ≤ op.inputs.length) (hout : op.outputs = [])
    (hstop : ¬ op.kernel.StopsEarly) :
    op.run true libm (uniformStore op.inputs (sampleInput op.kernel)) = .error .index := by
  set store := uniformStore op.inputs (sampleInput op.kernel)
  have hargs : (List.range op.kernel.arity).mapM (op.readInput store) =
      .ok ((List.range op.kernel.arity).map fun _ => sampleInput op.kernel) :=
    mapM_ok fun i hi => readInput_uniform (lt_of_lt_of_le (List.mem_range.mp hi) hin)
  obtain ⟨value, hvalue⟩ := prepare_sample libm hstop
  unfold Op.run
  split_ifs with hid
  · have hlen : 0 < op.inputs.length := by
      rw [hid, Kernel.arity] at hin
      exact hin
    simp [Op.inputName, Op.outputName, hout, hlen]
  · rw [Op.apply, hargs, except_ok_bind, prepare_args, hvalue]
    simp [throwing, Op.setOutput, Op.outputName, hout]

theorem indexSafe_iff_covered : op.IndexSafe ↔ op.Covered := by
  constructor
  · intro h
    have hin : op.kernel.arity ≤ op.inputs.length := by
      by_contra hlt
      exact h true ⟨id, id, id⟩ _ (run_missing_input (not_le.mp hlt) true .empty)
    refine ⟨hin, ?_⟩
    by_contra hno
    rw [not_or, not_not] at hno
    exact h true ⟨id, id, id⟩ _ (run_missing_output hin hno.1 hno.2)
  · intro h early libm store
    exact run_ne_index h

end Failing

inductive Creates (spec : OpSpec) : Kernel → Prop
  | binary {op} (h : binaryTypes.lookup spec.type = some op) : Creates spec (.binaryArith op)
  | scalar {op} (h : scalarTypes.lookup spec.type = some op) (v : Double) :
      Creates spec (.scalarArith op v)
  | unary {kind} (h : unaryTypes.lookup spec.type = some kind) : Creates spec (.unary kind)
  | reduce {kind} (h : reduceTypes.lookup spec.type = some kind) : Creates spec (.reduce kind)
  | compare {op} (h : compareTypes.lookup spec.type = some op) : Creates spec (.compare op)
  | compareScalar {op} (h : compareScalarTypes.lookup spec.type = some op) (v : Double) :
      Creates spec (.compareScalar op v)
  | select (h : spec.type = "select") : Creates spec .select
  | filter (h : spec.type = "filter") : Creates spec .filter
  | cast (h : spec.type = "cast") (dtype : DType) : Creates spec (.cast dtype)
  | quantize (h : spec.type = "quantize") : Creates spec .quantize
  | dequantize (h : spec.type = "dequantize") : Creates spec .dequantize
  | dot (h : spec.type = "dot") : Creates spec .dot
  | const (h : spec.type = "const") (value : String) :
      Creates spec (.const value ((spec.attr? "dtype").getD "float64")
        ((spec.attr? "size").getD "1"))
  | identity (h : spec.type = "identity") : Creates spec .identity

section Creation

variable {spec : OpSpec} {k : Kernel}

theorem creates_binary (h : createBinaryOp spec = .ok (some k)) : Creates spec k := by
  unfold createBinaryOp at h
  split at h
  · rename_i op hop
    obtain rfl : Kernel.binaryArith op = k := by simpa using h
    exact .binary hop
  · split at h
    · rename_i op hop
      split at h
      · cases h
      · obtain ⟨v, -, hv⟩ := except_bind_eq_ok.mp h
        obtain rfl : Kernel.scalarArith op v = k := by simpa using hv
        exact .scalar hop v
    · simp at h

theorem creates_compare (h : createCompareOp spec = .ok (some k)) : Creates spec k := by
  unfold createCompareOp at h
  split at h
  · rename_i op hop
    obtain rfl : Kernel.compare op = k := by simpa using h
    exact .compare hop
  · split at h
    · rename_i op hop
      split at h
      · cases h
      · obtain ⟨v, -, hv⟩ := except_bind_eq_ok.mp h
        obtain rfl : Kernel.compareScalar op v = k := by simpa using hv
        exact .compareScalar hop v
    · simp at h

theorem creates_special (h : createSpecialOp spec = .ok (some k)) : Creates spec k := by
  unfold createSpecialOp at h
  by_cases hselect : spec.type = "select"
  · rw [if_pos hselect] at h
    split_ifs at h
    obtain rfl : Kernel.select = k := by simpa using h
    exact .select hselect
  rw [if_neg hselect] at h
  by_cases hfilter : spec.type = "filter"
  · rw [if_pos hfilter] at h
    split_ifs at h
    obtain rfl : Kernel.filter = k := by simpa using h
    exact .filter hfilter
  rw [if_neg hfilter] at h
  by_cases hcast : spec.type = "cast"
  · rw [if_pos hcast] at h
    split at h
    · cases h
    · obtain ⟨dtype, -, hd⟩ := except_map_eq_ok.mp h
      obtain rfl : Kernel.cast dtype = k := by simpa using hd
      exact .cast hcast dtype
  rw [if_neg hcast] at h
  by_cases hquantize : spec.type = "quantize"
  · rw [if_pos hquantize] at h
    obtain rfl : Kernel.quantize = k := by simpa using h
    exact .quantize hquantize
  rw [if_neg hquantize] at h
  by_cases hdequantize : spec.type = "dequantize"
  · rw [if_pos hdequantize] at h
    obtain rfl : Kernel.dequantize = k := by simpa using h
    exact .dequantize hdequantize
  rw [if_neg hdequantize] at h
  by_cases hdot : spec.type = "dot"
  · rw [if_pos hdot] at h
    obtain rfl : Kernel.dot = k := by simpa using h
    exact .dot hdot
  rw [if_neg hdot] at h
  by_cases hconst : spec.type = "const"
  · rw [if_pos hconst] at h
    split at h
    · cases h
    · obtain rfl := Option.some.inj (Except.ok.inj h)
      exact .const hconst _
  rw [if_neg hconst] at h
  by_cases hidentity : spec.type = "identity"
  · rw [if_pos hidentity] at h
    obtain rfl : Kernel.identity = k := by simpa using h
    exact .identity hidentity
  rw [if_neg hidentity] at h
  simp at h

theorem creates_of_ok (h : createKernel spec = .ok k) : Creates spec k := by
  unfold createKernel at h
  obtain ⟨binary, hbinary, h⟩ := except_bind_eq_ok.mp h
  cases binary with
  | some k' =>
    obtain rfl := Except.ok.inj h
    exact creates_binary hbinary
  | none =>
    cases hunary : createUnaryOp spec with
    | some k' =>
      simp only [hunary] at h
      obtain rfl := Except.ok.inj h
      obtain ⟨kind, hkind, rfl⟩ := Option.map_eq_some_iff.mp hunary
      exact .unary hkind
    | none =>
      cases hreduce : createReduceOp spec with
      | some k' =>
        simp only [hunary, hreduce] at h
        obtain rfl := Except.ok.inj h
        obtain ⟨kind, hkind, rfl⟩ := Option.map_eq_some_iff.mp hreduce
        exact .reduce hkind
      | none =>
        simp only [hunary, hreduce] at h
        obtain ⟨compare, hcompare, h⟩ := except_bind_eq_ok.mp h
        cases compare with
        | some k' =>
          obtain rfl := Except.ok.inj h
          exact creates_compare hcompare
        | none =>
          obtain ⟨special, hspecial, h⟩ := except_bind_eq_ok.mp h
          cases special with
          | some k' =>
            obtain rfl := Except.ok.inj h
            exact creates_special hspecial
          | none => cases h

end Creation

def arityOf (type : String) : Nat :=
  if type ∈ ["add", "sub", "mul", "div", "gt", "ge", "lt", "le", "eq", "neq", "filter", "dot"] then 2
  else if type = "select" then 3
  else if type = "const" then 0
  else 1

def OpSpec.StopsEarly (spec : OpSpec) : Prop :=
  spec.type = "const" ∧ ((∀ d, parseDtype ((spec.attr? "dtype").getD "float64") ≠ .ok d) ∨
    ∀ n, stoull ((spec.attr? "size").getD "1") ≠ .ok n)

structure OpSpec.Covered (spec : OpSpec) : Prop where
  inputs : arityOf spec.type ≤ spec.inputs.length
  outputs : spec.outputs ≠ [] ∨ spec.StopsEarly

section Specs

variable {spec : OpSpec} {k : Kernel} {op : Op}

theorem type_of_lookup {α : Type} {table : List (String × α)} {type : String} {a : α}
    {P : String → Prop} (hP : ∀ name ∈ table.map Prod.fst, P name)
    (h : table.lookup type = some a) : P type := by
  apply hP
  obtain ⟨before, after, rfl, -⟩ := List.lookup_eq_some_iff.mp h
  simp

theorem creates_arity (h : Creates spec k) :
    arityOf spec.type = k.arity ∧ (spec.StopsEarly ↔ k.StopsEarly) := by
  have hother {n : Nat} (hn : arityOf spec.type = n ∧ spec.type ≠ "const") (hk : n = k.arity)
      (hstop : ¬ k.StopsEarly) :
      arityOf spec.type = k.arity ∧ (spec.StopsEarly ↔ k.StopsEarly) :=
    ⟨hn.1.trans hk, iff_of_false (fun h => hn.2 h.1) hstop⟩
  cases h with
  | binary h =>
    exact hother (type_of_lookup (P := fun t => arityOf t = 2 ∧ t ≠ "const") (by decide) h) rfl id
  | scalar h v =>
    exact hother (type_of_lookup (P := fun t => arityOf t = 1 ∧ t ≠ "const") (by decide) h) rfl id
  | unary h =>
    exact hother (type_of_lookup (P := fun t => arityOf t = 1 ∧ t ≠ "const") (by decide) h) rfl id
  | reduce h =>
    exact hother (type_of_lookup (P := fun t => arityOf t = 1 ∧ t ≠ "const") (by decide) h) rfl id
  | compare h =>
    exact hother (type_of_lookup (P := fun t => arityOf t = 2 ∧ t ≠ "const") (by decide) h) rfl id
  | compareScalar h v =>
    exact hother (type_of_lookup (P := fun t => arityOf t = 1 ∧ t ≠ "const") (by decide) h) rfl id
  | const h value =>
    refine ⟨by rw [h]; rfl, ?_⟩
    simp only [OpSpec.StopsEarly, Kernel.StopsEarly, h, true_and]
  | select h => exact hother (by rw [h]; exact ⟨rfl, by decide⟩) rfl id
  | filter h => exact hother (by rw [h]; exact ⟨rfl, by decide⟩) rfl id
  | cast h dtype => exact hother (by rw [h]; exact ⟨rfl, by decide⟩) rfl id
  | quantize h => exact hother (by rw [h]; exact ⟨rfl, by decide⟩) rfl id
  | dequantize h => exact hother (by rw [h]; exact ⟨rfl, by decide⟩) rfl id
  | dot h => exact hother (by rw [h]; exact ⟨rfl, by decide⟩) rfl id
  | identity h => exact hother (by rw [h]; exact ⟨rfl, by decide⟩) rfl id

theorem created_indexSafe_iff (h : createOp spec = .ok op) : op.IndexSafe ↔ spec.Covered := by
  obtain ⟨k, hk, rfl⟩ := except_map_eq_ok.mp h
  obtain ⟨harity, hstop⟩ := creates_arity (creates_of_ok hk)
  rw [indexSafe_iff_covered]
  constructor
  · rintro ⟨hin, hout⟩
    exact ⟨harity ▸ hin, hout.imp_right hstop.mpr⟩
  · rintro ⟨hin, hout⟩
    exact ⟨harity ▸ hin, hout.imp_right hstop.mp⟩

theorem created_indexSafe_add :
    createOp ⟨"add", ["x", "y"], ["z"], []⟩ = .ok ⟨"add", ["x", "y"], ["z"], .binaryArith .add⟩ ∧
      Op.IndexSafe ⟨"add", ["x", "y"], ["z"], .binaryArith .add⟩ := by
  have hcreate : createOp ⟨"add", ["x", "y"], ["z"], []⟩ =
      .ok ⟨"add", ["x", "y"], ["z"], .binaryArith .add⟩ := rfl
  exact ⟨hcreate, (created_indexSafe_iff hcreate).mpr ⟨by decide, .inl (by simp)⟩⟩

theorem created_reads_past_inputs :
    createOp ⟨"add", ["x"], ["z"], []⟩ = .ok ⟨"add", ["x"], ["z"], .binaryArith .add⟩ ∧
      Op.run false ⟨id, id, id⟩ ⟨"add", ["x"], ["z"], .binaryArith .add⟩
        (TensorStore.empty.set "x" (.scalar .float64 [.num 1])) = .error .index ∧
      ¬ Op.IndexSafe ⟨"add", ["x"], ["z"], .binaryArith .add⟩ := by
  have hrun : Op.run false ⟨id, id, id⟩ ⟨"add", ["x"], ["z"], .binaryArith .add⟩
      (TensorStore.empty.set "x" (.scalar .float64 [.num 1])) = .error .index := rfl
  exact ⟨rfl, hrun, fun h => h _ _ _ hrun⟩

end Specs

end Lark.Column.Exec
