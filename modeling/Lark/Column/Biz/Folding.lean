import Lark.Column.Biz.FoldedColumns

namespace Lark.Column.Biz.Dsl

open Lark.Base Lark.Toolkit.Dsl Lark.Column.Exec

namespace Term

def subst (hole : List Char) (x : Term) : Term → Term
  | col name => if name = hole then x else col name
  | lit int frac => lit int frac
  | neg e => neg (subst hole x e)
  | paren e => paren (subst hole x e)
  | bin op l r => bin op (subst hole x l) (subst hole x r)
  | call fn a => call fn (subst hole x a)
  | pair fn a b => pair fn (subst hole x a) (subst hole x b)
  | select m a b => select (subst hole x m) (subst hole x a) (subst hole x b)
  | cast a dtype => cast (subst hole x a) dtype

def columns : Term → List (List Char)
  | col name => [name]
  | lit _ _ => []
  | neg e => e.columns
  | paren e => e.columns
  | bin _ l r => l.columns ++ r.columns
  | call _ a => a.columns
  | pair _ a b => a.columns ++ b.columns
  | select m a b => m.columns ++ a.columns ++ b.columns
  | cast a _ => a.columns

def uses (hole : List Char) (e : Term) : Bool := e.columns.contains hole

def isNumber (hole : List Char) : Term → Bool
  | col name => name = hole
  | lit _ _ => true
  | neg e => e.isNumber hole
  | paren e => e.isNumber hole
  | bin _ l r => l.isNumber hole && r.isNumber hole
  | _ => false

def constant (c : ℚ) : Term → ℚ
  | col _ => c
  | lit int frac => decimalValue int frac
  | neg e => -e.constant c
  | paren e => e.constant c
  | bin op l r => op.eval (l.constant c) (r.constant c)
  | _ => 0

-- Every literal of the number and every result on the way to it is a double.
def Unrounded (c : ℚ) : Term → Prop
  | lit int frac => IsBinary64 (decimalValue int frac)
  | neg e => e.Unrounded c
  | paren e => e.Unrounded c
  | bin op l r => l.Unrounded c ∧ r.Unrounded c ∧
      IsBinary64 (op.eval (l.constant c) (r.constant c))
  | _ => True

end Term

-- `p op q` in place of the hole, or the columns `left op right` that hold its operands.
structure Folding where
  op : BinOp
  p : Literal
  q : Literal
  hole : List Char
  left : List Char
  right : List Char

namespace Folding

variable (f : Folding)

def value : ℚ := f.op.eval f.p.value f.q.value

def folded : Term := .bin f.op f.p.term f.q.term

def unfolded : Term := .bin f.op (.col f.left) (.col f.right)

def inline (e : Term) : Term := Term.subst f.hole f.folded e

def split (e : Term) : Term := Term.subst f.hole f.unfolded e

def isMask : Term → Bool
  | .col _ => f.op.isMask false
  | .neg e => isMask e
  | .paren e => isMask e
  | .bin op l r => op.isMask ((isMask l || !l.uses f.hole) && (isMask r || !r.uses f.hole))
  | _ => false

structure Exact : Prop where
  left : Encodable f.p.value
  right : Encodable f.q.value
  unrounded : f.folded.Unrounded 0
  divisor : f.op = .arith .div → f.q.value ≠ 0

def Folds (e : Term) : Prop := e.isNumber f.hole = true ∧ e.uses f.hole = true

def Prints (e : Term) : Prop := f.Folds e → f.isMask e = false ∧ Encodable (e.constant f.value)

def Passes (fn : List Char) (e : Term) : Prop :=
  f.Folds e → Encodable (e.constant f.value) ∧
    (f.isMask e = true → String.ofList fn ∈ readsDoubles)

def Casts (dtype : List Char) (e : Term) : Prop :=
  f.Folds e → Encodable (e.constant f.value) ∧
    (f.isMask e = true → String.ofList dtype = "int32" → InRange .int32 (e.constant f.value))

def Negates (e : Term) : Prop :=
  f.Folds e → f.isMask e = true → FitsOver [anyRow] fun _ => -e.constant f.value

def Meets (libm : Libm) (store : TensorStore) (op : BinOp) (number e : Term) : Prop :=
  ∀ s t, (f.inline e).eval libm store = .ok (.source s) → s.read store = .ok t →
    Operand op (f.isMask number) t

structure Numbers (op : BinOp) (l r : Term) : Prop where
  unrounded : (Term.bin op l r).Unrounded f.value
  divisor : op = .arith .div → r.constant f.value ≠ 0
  both : l.uses f.hole = true → r.uses f.hole = true →
    FitsResult [anyRow] op (f.isMask l && f.isMask r) (fun _ => l.constant f.value)
      fun _ => r.constant f.value
  right : r.uses f.hole = false →
    ScalarExact [anyRow] op (f.isMask l) (fun _ => l.constant f.value) (r.constant f.value)
  left : l.uses f.hole = false → op.Commutes ∧
    ScalarExact [anyRow] op (f.isMask r) (fun _ => r.constant f.value) (l.constant f.value)

structure Joins (libm : Libm) (store : TensorStore) (op : BinOp) (l r : Term) : Prop where
  numbers : l.isNumber f.hole = true → r.isNumber f.hole = true →
    (l.uses f.hole || r.uses f.hole) = true → f.Numbers op l r
  left : f.Folds l → r.isNumber f.hole = false →
    Encodable (l.constant f.value) ∧ op.Commutes ∧ f.Meets libm store op l r
  right : l.isNumber f.hole = false → f.Folds r →
    Encodable (r.constant f.value) ∧ f.Meets libm store op r l

def Transparent (libm : Libm) (store : TensorStore) : Term → Prop
  | .col _ => True
  | .lit _ _ => True
  | .neg e => Transparent libm store e ∧ f.Negates e
  | .paren e => Transparent libm store e
  | .bin op l r => Transparent libm store l ∧ Transparent libm store r ∧ f.Joins libm store op l r
  | .call fn a => Transparent libm store a ∧ f.Passes fn a
  | .pair _ a b => (Transparent libm store a ∧ f.Prints a) ∧ Transparent libm store b ∧ f.Prints b
  | .select m a b => (Transparent libm store m ∧ f.Prints m) ∧
      (Transparent libm store a ∧ f.Prints a) ∧ Transparent libm store b ∧ f.Prints b
  | .cast a dtype => Transparent libm store a ∧ f.Casts dtype a

def Free (s : Source) : Prop :=
  s ≠ .column (String.ofList f.left) ∧ s ≠ .column (String.ofList f.right)

inductive Linked (e : Term) : Datum → Datum → Prop
  | number (hn : e.isNumber f.hole = true) (hu : e.uses f.hole = false) :
      Linked e (.literal (.num (e.constant f.value))) (.literal (.num (e.constant f.value)))
  | folded {t} (h : f.Folds e) (ht : Carries (f.isMask e) (e.constant f.value) t) :
      Linked e (.literal (.num (e.constant f.value))) (.source (.tensor t))
  | source {s} (hn : e.isNumber f.hole = false) (hs : f.Free s) :
      Linked e (.source s) (.source s)

structure Apart (store store' : TensorStore) : Prop where
  same : ∀ c, c ≠ String.ofList f.left → c ≠ String.ofList f.right → store'.find c = store.find c
  left : store'.find (String.ofList f.left) = some (single f.p.value)
  right : store'.find (String.ofList f.right) = some (single f.q.value)

def Fresh (e : Term) : Prop := f.left ∉ e.columns ∧ f.right ∉ e.columns

end Folding

section

variable {f : Folding} {c : ℚ}

theorem isBinary64_constant {hole : List Char} {e : Term} (hn : e.isNumber hole = true)
    (hu : e.Unrounded c) (hc : IsBinary64 c) : IsBinary64 (e.constant c) := by
  induction e with
  | col name => exact hc
  | lit int frac => exact hu
  | neg e ih => exact (ih hn hu).neg
  | paren e ih => exact ih hn hu
  | bin op l r _ _ => exact hu.2.2
  | _ => simp [Term.isNumber] at hn

theorem folds_subst {hole : List Char} {x e : Term} (hx : x.folds = .num c)
    (hn : e.isNumber hole = true) (hu : e.Unrounded c) :
    (Term.subst hole x e).folds = .num (e.constant c) := by
  induction e with
  | col name =>
    have hname : name = hole := by simpa [Term.isNumber] using hn
    simp only [Term.subst, hname, if_true]
    exact hx
  | lit int frac => exact Double.round_of_isBinary64 hu
  | neg e ih => exact congrArg Neg.neg (ih hn hu)
  | paren e ih => exact ih hn hu
  | bin op l r ihl ihr =>
    obtain ⟨hnl, hnr⟩ : l.isNumber hole = true ∧ r.isNumber hole = true := by
      simpa [Term.isNumber] using hn
    obtain ⟨hul, hur, hround⟩ := hu
    simp only [Term.subst, Term.folds, ihl hnl hul, ihr hnr hur, fold_num, rounded]
    exact Double.round_of_isBinary64 hround
  | _ => simp [Term.isNumber] at hn

theorem Folding.Exact.folds (h : f.Exact) : f.folded.folds = .num f.value := by
  obtain ⟨hp, hq, hround⟩ := h.unrounded
  have hleft := Double.round_of_isBinary64 hp
  have hright := Double.round_of_isBinary64 hq
  simp only [Folding.folded, Literal.term, Term.folds, hleft, hright, fold_num, rounded]
  exact Double.round_of_isBinary64 hround

theorem Folding.Exact.isBinary64 (h : f.Exact) {e : Term} (hn : e.isNumber f.hole = true)
    (hu : e.Unrounded f.value) : IsBinary64 (e.constant f.value) :=
  isBinary64_constant hn hu h.unrounded.2.2

theorem Folding.Transparent.unrounded {libm : Libm} {store : TensorStore} {e : Term}
    (ht : f.Transparent libm store e) (hf : f.Folds e) : e.Unrounded f.value := by
  induction e with
  | col name => trivial
  | lit int frac => simp [Folding.Folds, Term.uses, Term.columns] at hf
  | neg e ih => exact ih ht.1 hf
  | paren e ih => exact ih ht hf
  | bin op l r _ _ =>
    obtain ⟨hnl, hnr⟩ : l.isNumber f.hole = true ∧ r.isNumber f.hole = true := by
      simpa [Term.isNumber] using hf.1
    have hu : (l.uses f.hole || r.uses f.hole) = true := by
      simpa [Term.uses, Term.columns] using hf.2
    exact (ht.2.2.numbers hnl hnr hu).unrounded
  | _ => simp [Folding.Folds, Term.isNumber] at hf

theorem Folding.Exact.folds_inline (h : f.Exact) {libm : Libm} {store : TensorStore} {e : Term}
    (ht : f.Transparent libm store e) (hf : f.Folds e) :
    (f.inline e).folds = .num (e.constant f.value) :=
  folds_subst h.folds hf.1 (ht.unrounded hf)

end

section

variable {f : Folding} {libm : Libm} {store store' : TensorStore}

theorem free_tensor (t : Tensor) : f.Free (.tensor t) := ⟨by simp, by simp⟩

theorem Folding.Apart.read (h : f.Apart store store') {s : Source} (hs : f.Free s) :
    s.read store' = s.read store := by
  cases s with
  | tensor t => rfl
  | column name =>
    have hname := h.same name (by simpa using hs.1) (by simpa using hs.2)
    simp only [Source.read, hname]

theorem Folding.Apart.invoke (h : f.Apart store store') {type : String}
    {attrs : List (String × String)} {args : List Source} (hs : ∀ s ∈ args, f.Free s) :
    Dsl.invoke libm store' type attrs args = Dsl.invoke libm store type attrs args := by
  have hread : readArg store' args = readArg store args := by
    funext i
    unfold readArg
    cases hi : args[i]? with
    | none => rfl
    | some s => exact h.read (hs s (List.mem_of_getElem? hi))
  rw [Dsl.invoke, Dsl.invoke, hread]

theorem linked_tensor {e : Term} (hn : e.isNumber f.hole = false) {x x' : Except Exn Tensor}
    (hx : x' = x) :
    ExceptRel (f.Linked e) (x >>= fun t => .ok (.source (.tensor t)))
      (x' >>= fun t => .ok (.source (.tensor t))) := by
  subst hx
  refine .refl _ fun d hd => ?_
  obtain ⟨t, -, rfl⟩ := except_map_eq_ok.mp hd
  exact .source hn (free_tensor t)

theorem linked_literal (x : Double) :
    ExceptRel (fun s s' => s = s' ∧ f.Free s) (evalArg libm store (.literal x))
      (evalArg libm store' (.literal x)) := by
  refine .refl _ fun s hs => ⟨rfl, ?_⟩
  obtain ⟨t, -, rfl⟩ := except_map_eq_ok.mp hs
  exact free_tensor t

theorem linked_arg {e : Term} {d d' : Datum} (hd : f.Linked e d d') (hp : f.Prints e) :
    ExceptRel (fun s s' => s = s' ∧ f.Free s) (evalArg libm store d) (evalArg libm store' d') := by
  cases hd with
  | number hn hu => exact linked_literal _
  | folded hf ht =>
    obtain ⟨hmask, henc⟩ := hp hf
    rw [hmask] at ht
    rw [evalArg, evalConst_encodable libm store henc, carries_float ht]
    exact .ok ⟨rfl, free_tensor _⟩
  | source hn hs => exact .ok ⟨rfl, hs⟩

theorem linked_neg {e : Term} {d d' : Datum} (h : f.Apart store store') (hd : f.Linked e d d')
    (hneg : f.Negates e) :
    ExceptRel (f.Linked (.neg e)) (evalNeg libm store d) (evalNeg libm store' d') := by
  cases hd with
  | number hn hu => exact .ok (.number (e := .neg e) hn hu)
  | @folded t hf ht =>
    obtain ⟨t', hrun, hcarries⟩ := neg_column libm ht (hneg hf)
    have hinvoke : invoke libm store' "neg" [] [.tensor t] = .ok t' := hrun
    rw [evalNeg, evalNeg, hinvoke]
    exact .ok (.folded (e := .neg e) hf hcarries)
  | source hn hs =>
    refine linked_tensor (e := .neg e) hn (h.invoke ?_)
    simpa using hs

theorem uses_bin (hole : List Char) (op : BinOp) (l r : Term) :
    (Term.bin op l r).uses hole = (l.uses hole || r.uses hole) := by
  simp [Term.uses, Term.columns]

section

variable {op : BinOp} {l r : Term} {s : Source}

theorem folds_bin (hl : l.isNumber f.hole = true) (hr : r.isNumber f.hole = true)
    (hu : (l.uses f.hole || r.uses f.hole) = true) : f.Folds (.bin op l r) :=
  ⟨by simp [Term.isNumber, hl, hr], by rw [uses_bin, hu]⟩

theorem linked_fold {x : Except Exn Datum} {t : Tensor} (hf : f.Folds (.bin op l r))
    (hx : x = .ok (.source (.tensor t)))
    (ht : Carries (f.isMask (.bin op l r)) (op.eval (l.constant f.value) (r.constant f.value)) t) :
    ExceptRel (f.Linked (.bin op l r))
      (.ok (.literal (op.fold (.num (l.constant f.value)) (.num (r.constant f.value))))) x := by
  rw [hx, fold_num]
  exact .ok (.folded hf ht)

theorem isMask_both (hl : l.uses f.hole = true) (hr : r.uses f.hole = true) :
    f.isMask (.bin op l r) = op.isMask (f.isMask l && f.isMask r) := by
  simp [Folding.isMask, hl, hr]

theorem isMask_left (hl : l.uses f.hole = true) (hr : r.uses f.hole = false) :
    f.isMask (.bin op l r) = op.isMask (f.isMask l) := by
  simp [Folding.isMask, hl, hr]

theorem isMask_right (hl : l.uses f.hole = false) (hr : r.uses f.hole = true) :
    f.isMask (.bin op l r) = op.isMask (f.isMask r) := by
  simp [Folding.isMask, hl, hr]

theorem evalScalar_number {c x : ℚ} {m : Bool} {a t : Tensor}
    (hex : ScalarExact [anyRow] op m (fun _ => x) c) (ht : op.onScalar (.num c) a = .ok t) :
    evalScalar libm store op (.num c) (.tensor a) = .ok (.source (.tensor t)) := by
  rw [evalScalar_encodable libm store op hex.encodable, Source.read, except_ok_bind, ht]
  rfl

theorem evalScalar_apart (h : f.Apart store store') (hs : f.Free s) (x : Double) :
    evalScalar libm store' op x s = evalScalar libm store op x s := by
  have hinvoke (text : String) :
      invoke libm store' (op.baseName ++ "_scalar") [("scalar", text)] [s] =
        invoke libm store (op.baseName ++ "_scalar") [("scalar", text)] [s] := by
    refine h.invoke ?_
    simpa using hs
  simp only [evalScalar, hinvoke]

theorem linked_scalar (h : f.Apart store store') (hn : (Term.bin op l r).isNumber f.hole = false)
    (hs : f.Free s) (x : Double) :
    ExceptRel (f.Linked (.bin op l r)) (evalScalar libm store op x s)
      (evalScalar libm store' op x s) := by
  rw [evalScalar_apart h hs]
  refine .refl _ fun d hd => ?_
  obtain ⟨text, -, hd⟩ := except_bind_eq_ok.mp hd
  obtain ⟨t, -, rfl⟩ := except_map_eq_ok.mp hd
  exact .source hn (free_tensor t)

theorem linked_meets (hn : (Term.bin op l r).isNumber f.hole = false) {c : ℚ}
    (hc : Encodable c) {args : List Source}
    (hargs : ∀ t, s.read store = .ok t →
      invoke libm store' op.baseName [] args = op.onScalar (.num c) t)
    (herr : ∀ e, s.read store = .error e → invoke libm store' op.baseName [] args = .error e) :
    ExceptRel (f.Linked (.bin op l r)) (evalScalar libm store op (.num c) s)
      (invoke libm store' op.baseName [] args >>= fun t => .ok (.source (.tensor t))) := by
  rw [evalScalar_encodable libm store op hc]
  cases ht : s.read store with
  | error e =>
    rw [herr e ht]
    exact .error e
  | ok t =>
    rw [hargs t ht, except_ok_bind]
    exact linked_tensor hn rfl

theorem linked_binary {a a' b b' : Datum} (h : f.Apart store store')
    (hj : f.Joins libm store op l r) (hea : (f.inline l).eval libm store = .ok a)
    (heb : (f.inline r).eval libm store = .ok b) (ha : f.Linked l a a') (hb : f.Linked r b b') :
    ExceptRel (f.Linked (.bin op l r)) (evalBinary libm store op a b)
      (evalBinary libm store' op a' b') := by
  have hnumber (hl : l.isNumber f.hole = false ∨ r.isNumber f.hole = false) :
      (Term.bin op l r).isNumber f.hole = false := by
    rcases hl with hl | hl <;> simp [Term.isNumber, hl]
  cases ha with
  | number hnl hul =>
    cases hb with
    | number hnr hur =>
      simp only [evalBinary, fold_num]
      exact .ok (.number (e := .bin op l r) (by simp [Term.isNumber, hnl, hnr])
        (by simp [uses_bin, hul, hur]))
    | folded hfr hb =>
      have hj := hj.numbers hnl hfr.1 (by simp [hfr.2])
      obtain ⟨hcomm, hex⟩ := hj.left hul
      obtain ⟨t, hrun, hcarries⟩ := onScalar_left hb hcomm hex
      refine linked_fold (folds_bin hnl hfr.1 (by simp [hfr.2])) (evalScalar_number hex hrun) ?_
      rw [isMask_right hul hfr.2]
      exact hcarries
    | source hnr hs => exact linked_scalar h (hnumber (.inr hnr)) hs _
  | folded hfl ha =>
    cases hb with
    | number hnr hur =>
      have hj := hj.numbers hfl.1 hnr (by simp [hfl.2])
      obtain ⟨t, hrun, hcarries⟩ := onScalar_carries ha hj.divisor (hj.right hur)
      refine linked_fold (folds_bin hfl.1 hnr (by simp [hfl.2]))
        (evalScalar_number (hj.right hur) hrun) ?_
      rw [isMask_left hfl.2 hur]
      exact hcarries
    | folded hfr hb =>
      have hj := hj.numbers hfl.1 hfr.1 (by simp [hfl.2])
      obtain ⟨t, hrun, hcarries⟩ := onTensors_carries ha hb hj.divisor (hj.both hfl.2 hfr.2)
      refine linked_fold (folds_bin hfl.1 hfr.1 (by simp [hfl.2])) (t := t) ?_ ?_
      · simp only [evalBinary, invoke_binary, Source.read, except_ok_bind, hrun]
      · rw [isMask_both hfl.2 hfr.2]
        exact hcarries
    | @source s hnr hs =>
      obtain ⟨henc, hcomm, hmeets⟩ := hj.left hfl hnr
      refine linked_meets (hnumber (.inr hnr)) henc ?_ ?_
      · intro t ht
        rw [invoke_binary, h.read hs, ht]
        exact (onScalar_commutes hcomm (hmeets s t heb ht) ha).symm
      · intro e he
        rw [invoke_binary, h.read hs, he]
        rfl
  | @source s hnl hs =>
    cases hb with
    | number hnr hur => exact linked_scalar h (hnumber (.inl hnl)) hs _
    | folded hfr hb =>
      obtain ⟨henc, hmeets⟩ := hj.right hnl hfr
      refine linked_meets (hnumber (.inl hnl)) henc ?_ ?_
      · intro t ht
        rw [invoke_binary, h.read hs, ht]
        exact (onScalar_operand (hmeets s t hea ht) hb).symm
      · intro e he
        rw [invoke_binary, h.read hs, he]
        rfl
    | @source s' hnr hs' =>
      refine linked_tensor (hnumber (.inl hnl)) (h.invoke ?_)
      simpa using ⟨hs, hs'⟩

end

theorem linked_hole (hex : f.Exact) (h : f.Apart store store') :
    ExceptRel (f.Linked (.col f.hole)) (f.folded.eval libm store)
      (f.unfolded.eval libm store') := by
  have hfolded : f.folded.eval libm store = .ok (.literal (.num f.value)) := by
    simp only [Folding.folded, Literal.term, Term.eval, except_ok_bind, evalBinary, fold_num]
    rfl
  have hleft : Source.read store' (.column (String.ofList f.left)) = .ok (single f.p.value) := by
    simp only [Source.read, h.left]
  have hright : Source.read store' (.column (String.ofList f.right)) = .ok (single f.q.value) := by
    simp only [Source.read, h.right]
  have hvalue : ∃ t, f.op.onTensors (single f.p.value) (single f.q.value) = .ok t ∧
      Carries (f.op.isMask false) f.value t :=
    onTensors_carries (carries_single _) (carries_single _) hex.divisor
      fun _ _ _ hm => absurd hm (by decide)
  obtain ⟨t, hrun, hcarries⟩ := hvalue
  have hunfolded : f.unfolded.eval libm store' = .ok (.source (.tensor t)) := by
    simp only [Folding.unfolded, Term.eval, except_ok_bind, evalBinary, invoke_binary, hleft,
      hright, hrun]
  have hhole : f.Folds (.col f.hole) :=
    ⟨by simp [Term.isNumber], by simp [Term.uses, Term.columns]⟩
  rw [hfolded, hunfolded]
  exact .ok (.folded hhole hcarries)

theorem linked_args {e : Term} {d d' : Datum} {k k' : Source → Except Exn Datum} {e' : Term}
    (hd : f.Linked e d d') (hp : f.Prints e)
    (hk : ∀ s, f.Free s → ExceptRel (f.Linked e') (k s) (k' s)) :
    ExceptRel (f.Linked e') (evalArg libm store d >>= k) (evalArg libm store' d' >>= k') := by
  refine (linked_arg hd hp).bind ?_
  rintro s _ ⟨rfl, hs⟩
  exact hk s hs

theorem linked_call (h : f.Apart store store') {e e' : Term} {d d' : Datum}
    (hn : e'.isNumber f.hole = false) (hd : f.Linked e d d') {type : String}
    {attrs : List (String × String)}
    (hcall : f.Folds e → Encodable (e.constant f.value) ∧
      ∀ t, Carries (f.isMask e) (e.constant f.value) t →
        invoke libm store' type attrs [.tensor t] =
          invoke libm store' type attrs [.tensor (single (e.constant f.value))]) :
    ExceptRel (f.Linked e')
      (evalArg libm store d >>= fun s => evalCall libm store type attrs [s])
      (evalArg libm store' d' >>= fun s => evalCall libm store' type attrs [s]) := by
  have hone {s : Source} (hs : f.Free s) : ExceptRel (f.Linked e')
      (evalCall libm store type attrs [s]) (evalCall libm store' type attrs [s]) :=
    linked_tensor hn (h.invoke (by simpa using hs))
  cases hd with
  | number hnum hu =>
    refine (linked_literal (f := f) _).bind ?_
    rintro s _ ⟨rfl, hs⟩
    exact hone hs
  | folded hf ht =>
    obtain ⟨henc, hsame⟩ := hcall hf
    rw [evalArg, evalConst_encodable libm store henc, evalArg, except_ok_bind, except_ok_bind,
      except_ok_bind]
    simp only [evalCall, hsame _ ht]
    exact hone (free_tensor _)
  | source hnum hs => exact hone hs

theorem ofList_ne {name name' : List Char} (h : name ≠ name') :
    Source.column (String.ofList name) ≠ .column (String.ofList name') := by
  intro he
  have hlist := congrArg String.toList (Source.column.inj he)
  exact h (by simpa using hlist)

theorem Folding.Fresh.subset {e e' : Term} (h : f.Fresh e) (hsub : e'.columns ⊆ e.columns) :
    f.Fresh e' :=
  ⟨fun hc => h.1 (hsub hc), fun hc => h.2 (hsub hc)⟩

theorem linked_eval (hex : f.Exact) (h : f.Apart store store') {e : Term} (hfresh : f.Fresh e)
    (ht : f.Transparent libm store e) :
    ExceptRel (f.Linked e) ((f.inline e).eval libm store) ((f.split e).eval libm store') := by
  have hcall {e : Term} (hn : e.isNumber f.hole = false) {type : String}
      {attrs : List (String × String)} {args : List Source} (hs : ∀ s ∈ args, f.Free s) :
      ExceptRel (f.Linked e) (evalCall libm store type attrs args)
        (evalCall libm store' type attrs args) := linked_tensor hn (h.invoke hs)
  induction e with
  | col name =>
    by_cases hname : name = f.hole
    · subst hname
      simp only [Folding.inline, Folding.split, Term.subst, if_true]
      exact linked_hole hex h
    · simp only [Folding.inline, Folding.split, Term.subst, hname, if_false, Term.eval]
      refine .ok (.source (by simpa [Term.isNumber] using hname) ⟨?_, ?_⟩)
      · exact ofList_ne (Ne.symm (by simpa [Term.columns] using hfresh.1))
      · exact ofList_ne (Ne.symm (by simpa [Term.columns] using hfresh.2))
  | lit int frac => exact .ok (.number rfl rfl)
  | neg e ih => exact (ih hfresh ht.1).bind fun d d' hd => linked_neg h hd ht.2
  | paren e ih =>
    refine (ih hfresh ht).mono fun d d' hd => ?_
    cases hd with
    | number hn hu => exact .number (e := .paren e) hn hu
    | folded hf hc => exact .folded (e := .paren e) hf hc
    | source hn hs => exact .source (e := .paren e) hn hs
  | bin op l r ihl ihr =>
    have hl := hfresh.subset (List.subset_append_left l.columns r.columns)
    have hr := hfresh.subset (List.subset_append_right l.columns r.columns)
    refine (ihl hl ht.1).bind_eq fun a a' hea ha => ?_
    refine (ihr hr ht.2.1).bind_eq fun b b' heb hb => ?_
    exact linked_binary h ht.2.2 hea heb ha hb
  | call fn a ih =>
    refine (ih hfresh ht.1).bind fun d d' hd => linked_call h rfl hd fun hf => ?_
    obtain ⟨henc, hreads⟩ := ht.2 hf
    refine ⟨henc, fun t hc => ?_⟩
    cases hm : f.isMask a with
    | false =>
      rw [hm] at hc
      rw [carries_float hc]
    | true =>
      have hdouble := hex.isBinary64 hf.1 (ht.1.unrounded hf)
      exact invoke_readsDoubles libm store' (hreads hm) hc hdouble
  | pair fn a b iha ihb =>
    obtain ⟨⟨hta, hpa⟩, htb, hpb⟩ := ht
    have hfa := hfresh.subset (List.subset_append_left a.columns b.columns)
    have hfb := hfresh.subset (List.subset_append_right a.columns b.columns)
    refine (iha hfa hta).bind fun da da' hda => ?_
    refine (ihb hfb htb).bind fun db db' hdb => ?_
    refine linked_args hda hpa fun sa hsa => ?_
    refine linked_args hdb hpb fun sb hsb => ?_
    exact hcall rfl (by simpa using ⟨hsa, hsb⟩)
  | select m a b ihm iha ihb =>
    obtain ⟨⟨htm, hpm⟩, ⟨hta, hpa⟩, htb, hpb⟩ := ht
    have hsub : ∀ c ∈ m.columns ++ a.columns ++ b.columns, c ∈ (Term.select m a b).columns :=
      fun c hc => hc
    refine (ihm (hfresh.subset fun c hc => hsub c (by simp [hc])) htm).bind fun dm dm' hdm => ?_
    refine (iha (hfresh.subset fun c hc => hsub c (by simp [hc])) hta).bind fun da da' hda => ?_
    refine (ihb (hfresh.subset fun c hc => hsub c (by simp [hc])) htb).bind fun db db' hdb => ?_
    refine linked_args hdm hpm fun sm hsm => ?_
    refine linked_args hda hpa fun sa hsa => ?_
    refine linked_args hdb hpb fun sb hsb => ?_
    exact hcall rfl (by simpa using ⟨hsm, hsa, hsb⟩)
  | cast a dtype ih =>
    refine (ih hfresh ht.1).bind fun d d' hd => linked_call h rfl hd fun hf => ?_
    obtain ⟨henc, hrange⟩ := ht.2 hf
    exact ⟨henc, fun t hc => cast_carries libm store' hc hrange⟩

theorem Folding.Apart.set (h : f.Apart store store') {target : String} (t : Tensor)
    (hl : target ≠ String.ofList f.left) (hr : target ≠ String.ofList f.right) :
    f.Apart (store.set target t) (store'.set target t) where
  same c hcl hcr := by
    by_cases hc : c = target
    · subst hc
      simp
    · rw [TensorStore.set_find_of_ne _ _ _ hc, TensorStore.set_find_of_ne _ _ _ hc]
      exact h.same c hcl hcr
  left := by
    rw [TensorStore.set_find_of_ne _ _ _ hl.symm]
    exact h.left
  right := by
    rw [TensorStore.set_find_of_ne _ _ _ hr.symm]
    exact h.right

theorem linked_assign {e : Term} {d d' : Datum} {target : String} (h : f.Apart store store')
    (hd : f.Linked e d d') (hp : f.Prints e) (hl : target ≠ String.ofList f.left)
    (hr : target ≠ String.ofList f.right) :
    ExceptRel f.Apart (evalAssign libm store target d) (evalAssign libm store' target d') := by
  have hset (x : Except Exn Tensor) : ExceptRel f.Apart
      (x >>= fun t => .ok (store.set target t)) (x >>= fun t => .ok (store'.set target t)) := by
    cases x with
    | error e => exact .error e
    | ok t => exact .ok (h.set t hl hr)
  cases hd with
  | number hn hu => exact hset _
  | folded hf ht =>
    obtain ⟨hmask, henc⟩ := hp hf
    rw [hmask] at ht
    rw [evalAssign, evalConst_encodable libm store henc, carries_float ht]
    exact .ok (h.set _ hl hr)
  | @source s hn hs =>
    cases s with
    | tensor t => exact .ok (h.set t hl hr)
    | column name =>
      simp only [evalAssign, h.read hs]
      split
      · exact .ok h
      · exact hset _

end

namespace Folding

variable (f : Folding)

def inlineStatement (s : Statement) : Statement := ⟨s.target, f.inline s.term⟩

def splitStatement (s : Statement) : Statement := ⟨s.target, f.split s.term⟩

def foldedProgram (prog : List Statement) : List Statement := prog.map f.inlineStatement

def unfoldedProgram (prog : List Statement) : List Statement :=
  ⟨f.left, f.p.term⟩ :: ⟨f.right, f.q.term⟩ :: prog.map f.splitStatement

structure FreshFor (s : Statement) : Prop where
  term : f.Fresh s.term
  left : s.target ≠ f.left
  right : s.target ≠ f.right

def TransparentRun (libm : Libm) : List Statement → TensorStore → Prop
  | [], _ => True
  | s :: prog, store => (f.Transparent libm store s.term ∧ f.Prints s.term) ∧
      ∀ store₁, (f.inlineStatement s).eval libm store = .ok store₁ →
        TransparentRun libm prog store₁

end Folding

section

variable {f : Folding} {libm : Libm} {store store' : TensorStore}

theorem linked_statement (hex : f.Exact) (h : f.Apart store store') {s : Statement}
    (hfresh : f.FreshFor s) (ht : f.Transparent libm store s.term) (hp : f.Prints s.term) :
    ExceptRel f.Apart ((f.inlineStatement s).eval libm store)
      ((f.splitStatement s).eval libm store') := by
  have hne {name : List Char} (h : s.target ≠ name) :
      String.ofList s.target ≠ String.ofList name := by
    intro he
    exact ofList_ne h (congrArg Source.column he)
  refine (linked_eval hex h hfresh.term ht).bind fun d d' hd => ?_
  exact linked_assign h hd hp (hne hfresh.left) (hne hfresh.right)

theorem linked_program (hex : f.Exact) {prog : List Statement} (h : f.Apart store store')
    (hfresh : ∀ s ∈ prog, f.FreshFor s) (ht : f.TransparentRun libm prog store) :
    ExceptRel f.Apart (evalProgram libm (prog.map f.inlineStatement) store)
      (evalProgram libm (prog.map f.splitStatement) store') := by
  induction prog generalizing store store' with
  | nil => exact .ok h
  | cons s prog ih =>
    obtain ⟨⟨hs, hp⟩, hrest⟩ := ht
    simp only [evalProgram, List.map_cons, List.foldlM_cons]
    refine (linked_statement hex h (hfresh s (by simp)) hs hp).bind_eq fun store₁ _ he h₁ => ?_
    exact ih h₁ (fun s' hs' => hfresh s' (by simp [hs'])) (hrest store₁ he)

theorem unfolded_apart (libm : Libm) (store : TensorStore) (hex : f.Exact)
    (hne : f.left ≠ f.right) (prog : List Statement) :
    ∃ store', f.Apart store store' ∧ evalProgram libm (f.unfoldedProgram prog) store =
      evalProgram libm (prog.map f.splitStatement) store' := by
  have hconst {name : List Char} {l : Literal} (store : TensorStore) (h : Encodable l.value) :
      Statement.eval libm store ⟨name, l.term⟩ =
        .ok (store.set (String.ofList name) (single l.value)) := by
    simp only [Statement.eval, Literal.term, Term.eval, except_ok_bind, evalAssign]
    rw [← Literal.value, evalConst_encodable libm store h]
    rfl
  have hstr : String.ofList f.left ≠ String.ofList f.right := fun he =>
    ofList_ne hne (congrArg Source.column he)
  refine ⟨(store.set (String.ofList f.left) (single f.p.value)).set (String.ofList f.right)
    (single f.q.value), ?_, ?_⟩
  · refine ⟨?_, ?_, by simp⟩
    · intro c hl hr
      rw [TensorStore.set_find_of_ne _ _ _ hr, TensorStore.set_find_of_ne _ _ _ hl]
    · rw [TensorStore.set_find_of_ne _ _ _ hstr]
      simp
  · simp only [evalProgram, Folding.unfoldedProgram, List.foldlM_cons, hconst _ hex.left,
      hconst _ hex.right, except_ok_bind]

theorem level_split (e : Term) : (f.split e).level = (f.inline e).level := by
  cases e with
  | col name =>
    by_cases h : name = f.hole
    · simp only [Folding.split, Folding.inline, Term.subst, h, if_true]
      rfl
    · simp only [Folding.split, Folding.inline, Term.subst, h, if_false]
  | _ => rfl

theorem wellFormed_split {e : Term} (hl : IsIdent f.left) (hr : IsIdent f.right)
    (h : (f.inline e).WellFormed) : (f.split e).WellFormed := by
  induction e with
  | col name =>
    by_cases hname : name = f.hole
    · simp only [Folding.inline, Folding.split, Term.subst, hname, if_true] at h ⊢
      exact ⟨hl, hr, h.2.2⟩
    · simpa only [Folding.inline, Folding.split, Term.subst, hname, if_false] using h
  | lit int frac => exact h
  | neg e ih => exact ⟨ih h.1, (level_split e).trans h.2⟩
  | paren e ih => exact ih h
  | bin op l r ihl ihr =>
    obtain ⟨hwl, hwr, hlp, hrp⟩ := h
    exact ⟨ihl hwl, ihr hwr, (level_split l).symm ▸ hlp, (level_split r).symm ▸ hrp⟩
  | call fn a ih => exact ⟨h.1, h.2.1, ih h.2.2⟩
  | pair fn a b iha ihb => exact ⟨h.1, h.2.1, iha h.2.2.1, ihb h.2.2.2⟩
  | select m a b ihm iha ihb => exact ⟨ihm h.1, iha h.2.1, ihb h.2.2⟩
  | cast a dtype ih => exact ⟨ih h.1, h.2⟩

end

inductive SameColumns (hidden : List String) :
    Except Exn TensorStore → Except Exn TensorStore → Prop
  | failed (e e' : Exn) : SameColumns hidden (.error e) (.error e')
  | ok {run run' : TensorStore}
      (same : ∀ c, (∀ k, c ≠ tempName k) → c ∉ hidden → run'.find c = run.find c) :
      SameColumns hidden (.ok run) (.ok run')

def Folding.hidden (f : Folding) : List String := [String.ofList f.left, String.ofList f.right]

theorem sameColumns_of_matched {f : Folding} {r r' p p' : Except Exn TensorStore}
    (h : ExceptRel f.Apart r r') (hr : Matched r p) (hr' : Matched r' p') :
    SameColumns f.hidden p p' := by
  cases h with
  | error e =>
    cases p with
    | ok run => exact hr.elim
    | error _ =>
      cases p' with
      | ok run => exact hr'.elim
      | error _ => exact .failed _ _
  | ok h =>
    cases p with
    | error _ => exact hr.elim
    | ok run =>
      cases p' with
      | error _ => exact hr'.elim
      | ok run' =>
        refine .ok fun c hc hhidden => ?_
        simp only [Folding.hidden, List.mem_cons, List.not_mem_nil, or_false, not_or] at hhidden
        rw [hr' c hc, hr c hc]
        exact h.same c hhidden.1 hhidden.2

def digit (c : Char) (hd : c.isDigit = true)
    (hr : inDoubleRange (decimalValue [c] none) = true) : Literal :=
  ⟨[c], none, isDecimal_of_all (by simpa using hd) rfl (by simp), hr⟩

def foldingOf (op : BinOp) (p q : Literal) : Folding := ⟨op, p, q, ['h'], ['c'], ['d']⟩

theorem one_isDigit : '1'.isDigit = true := rfl

theorem one_inRange : inDoubleRange (decimalValue ['1'] none) = true := by
  decide +kernel

theorem two_isDigit : '2'.isDigit = true := rfl

theorem two_inRange : inDoubleRange (decimalValue ['2'] none) = true := by
  decide +kernel

def oneTwo (op : BinOp) : Folding :=
  foldingOf op (digit '1' one_isDigit one_inRange) (digit '2' two_isDigit two_inRange)

-- `w = x * (1 + 2)` and `v = -(1 + 2)`.
def scaled : List Statement :=
  [⟨['w'], .bin (.arith .mul) (.col ['x']) (.paren (.col ['h']))⟩,
    ⟨['v'], .neg (.paren (.col ['h']))⟩]

-- `w = x * (1 < 2)` and `v = sqrt(1 < 2)`.
def masked : List Statement :=
  [⟨['w'], .bin (.arith .mul) (.col ['x']) (.paren (.col ['h']))⟩,
    ⟨['v'], .call ['s', 'q', 'r', 't'] (.col ['h'])⟩]

theorem encodable_int {n : Int} (h : FitsInt64 n) : Encodable n := .inl ⟨n, rfl, h⟩

theorem digit_value : decimalValue ['1'] none = 1 ∧ decimalValue ['2'] none = 2 := by
  decide +kernel

theorem oneTwo_exact {op : BinOp} (h : IsBinary64 (op.eval 1 2)) : (oneTwo op).Exact := by
  obtain ⟨hone, htwo⟩ := digit_value
  have hp : (oneTwo op).p.value = (1 : Int) := by exact_mod_cast hone
  have hq : (oneTwo op).q.value = (2 : Int) := by exact_mod_cast htwo
  refine ⟨?_, ?_, ⟨?_, ?_, ?_⟩, fun _ => ?_⟩
  · exact .inl ⟨1, hp.symm, by unfold FitsInt64; decide⟩
  · exact .inl ⟨2, hq.symm, by unfold FitsInt64; decide⟩
  · exact (congrArg IsBinary64 hp).mpr (Double.isBinary64_intCast (by decide))
  · exact (congrArg IsBinary64 hq).mpr (Double.isBinary64_intCast (by decide))
  · change IsBinary64 (op.eval (decimalValue ['1'] none) (decimalValue ['2'] none))
    rwa [hone, htwo]
  · rw [hq]
    decide +kernel

theorem oneTwo_fresh {op : BinOp} {s : Statement} (hterm : ['c'] ∉ s.term.columns)
    (hterm' : ['d'] ∉ s.term.columns) (hc : s.target ≠ ['c']) (hd : s.target ≠ ['d']) :
    (oneTwo op).FreshFor s :=
  ⟨⟨hterm, hterm'⟩, hc, hd⟩

def oneRow (t : Tensor) : TensorStore := TensorStore.empty.set "x" t

theorem product_joins {op : BinOp} {c : ℚ} {t : Tensor} (hc : (oneTwo op).value = c)
    (henc : Encodable c) (ht : Operand (.arith .mul) (op.isMask false) t) :
    (oneTwo op).Joins exactLibm (oneRow t) (.arith .mul) (.col ['x']) (.paren (.col ['h'])) := by
  have hx : (Term.col ['x']).isNumber ['h'] = false := rfl
  refine ⟨fun hn => absurd (hx.symm.trans hn) nofun, fun hf => absurd (hx.symm.trans hf.1) nofun,
    fun _ _ => ⟨?_, ?_⟩⟩
  · rw [Term.constant, Term.constant, hc]
    exact henc
  · intro s u hs hread
    obtain rfl : Source.column "x" = s := by
      simpa [Folding.inline, Term.subst, oneTwo, foldingOf, Term.eval] using hs
    obtain rfl : t = u := by simpa [Source.read, oneRow] using hread
    exact ht

theorem scaled_transparent :
    (oneTwo (.arith .add)).TransparentRun exactLibm scaled (oneRow (single 5)) := by
  have hvalue : (oneTwo (.arith .add)).value = 3 := by decide +kernel
  have hthree : Encodable 3 := encodable_int (n := 3) (by unfold FitsInt64; decide)
  have hminus : Encodable (-3) := encodable_int (n := -3) (by unfold FitsInt64; decide)
  refine ⟨⟨⟨trivial, trivial, ?_⟩, fun hx => absurd hx.1 (by decide)⟩, fun store₁ _ => ?_⟩
  · exact product_joins hvalue hthree ⟨.float64, .num 5, rfl, .inr (.inl rfl)⟩
  · refine ⟨⟨⟨trivial, fun _ hm => absurd hm (by decide)⟩, fun _ => ⟨by decide, ?_⟩⟩,
      fun _ _ => trivial⟩
    rw [Term.constant, Term.constant, Term.constant, hvalue]
    exact hminus

theorem masked_transparent :
    (oneTwo (.cmp .lt)).TransparentRun exactLibm masked (oneRow (.scalar .int64 [5])) := by
  have hvalue : (oneTwo (.cmp .lt)).value = 1 := by decide +kernel
  have hone : Encodable 1 := encodable_int (n := 1) (by unfold FitsInt64; decide)
  refine ⟨⟨⟨trivial, trivial, ?_⟩, fun hx => absurd hx.1 (by decide)⟩, fun store₁ _ => ?_⟩
  · exact product_joins hvalue hone ⟨.int64, 5, rfl, .inr (.inr ⟨rfl, rfl⟩)⟩
  · refine ⟨⟨⟨trivial, fun _ => ⟨?_, fun _ => by decide⟩⟩, fun hx => absurd hx.1 (by decide)⟩,
      fun _ _ => trivial⟩
    rw [Term.constant, hvalue]
    exact hone

theorem scaled_fresh (op : BinOp) : ∀ s ∈ scaled, (oneTwo op).FreshFor s := by
  simp only [scaled, List.mem_cons, List.not_mem_nil, or_false, forall_eq_or_imp, forall_eq]
  exact ⟨oneTwo_fresh (by decide) (by decide) (by decide) (by decide),
    oneTwo_fresh (by decide) (by decide) (by decide) (by decide)⟩

theorem masked_fresh (op : BinOp) : ∀ s ∈ masked, (oneTwo op).FreshFor s := by
  simp only [masked, List.mem_cons, List.not_mem_nil, or_false, forall_eq_or_imp, forall_eq]
  exact ⟨oneTwo_fresh (by decide) (by decide) (by decide) (by decide),
    oneTwo_fresh (by decide) (by decide) (by decide) (by decide)⟩

theorem oneTwo_wellFormed (op : BinOp) : (oneTwo op).folded.WellFormed := by
  refine ⟨Literal.term_wellFormed _, Literal.term_wellFormed _, ?_, ?_⟩
  all_goals rcases op with op | op <;> cases op <;> decide

theorem scaled_wellFormed :
    ∀ s ∈ (oneTwo (.arith .add)).foldedProgram scaled, s.WellFormed := by
  have hfolded := oneTwo_wellFormed (.arith .add)
  simp only [Folding.foldedProgram, scaled, List.map_cons, List.map_nil, List.mem_cons,
    List.not_mem_nil, or_false, forall_eq_or_imp, forall_eq]
  exact ⟨⟨isIdent_letter rfl, isIdent_letter rfl, hfolded, by decide, by decide⟩,
    isIdent_letter rfl, hfolded, rfl⟩

theorem masked_wellFormed :
    ∀ s ∈ (oneTwo (.cmp .lt)).foldedProgram masked, s.WellFormed := by
  have hfolded := oneTwo_wellFormed (.cmp .lt)
  simp only [Folding.foldedProgram, masked, List.map_cons, List.map_nil, List.mem_cons,
    List.not_mem_nil, or_false, forall_eq_or_imp, forall_eq]
  have hsqrt : IsIdent ['s', 'q', 'r', 't'] :=
    ⟨⟨'s', ['q', 'r', 't'], rfl, rfl⟩, List.all_eq_true.1 rfl⟩
  exact ⟨⟨isIdent_letter rfl, isIdent_letter rfl, hfolded, by decide, by decide⟩,
    isIdent_letter rfl, hsqrt, by decide, hfolded⟩

def Folding.Invisible (f : Folding) (libm : Libm) (prog : List Statement) (store : TensorStore) :
    Prop :=
  ∀ s₁ s₂, RendersProgram (f.foldedProgram prog) s₁ → RendersProgram (f.unfoldedProgram prog) s₂ →
    SameColumns f.hidden (runSource libm (String.ofList s₁) store)
      (runSource libm (String.ofList s₂) store)

def assigned (r : Except Exn TensorStore) (c : String) : Option Tensor :=
  r.toOption.bind (·.find c)

theorem SameColumns.assigned_eq {hidden : List String} {r r' : Except Exn TensorStore}
    (h : SameColumns hidden r r') {c : String} (hc : ∀ k, c ≠ tempName k) (hh : c ∉ hidden) :
    assigned r' c = assigned r c := by
  cases h with
  | failed e e' => rfl
  | ok same => exact same c hc hh

theorem Folding.Invisible.assigned_eq {f : Folding} {libm : Libm} {prog : List Statement}
    {store : TensorStore} (h : f.Invisible libm prog store) (hv : "v" ∉ f.hidden) :
    assigned (runSource libm (String.ofList (programText (f.unfoldedProgram prog))) store) "v" =
      assigned (runSource libm (String.ofList (programText (f.foldedProgram prog))) store) "v" :=
  (h _ _ (rendersProgram_text _) (rendersProgram_text _)).assigned_eq
    (ident_ne_tempName (isIdent_letter (c := 'v') rfl)) hv

def fraction (c c' : Char) (hd : [c, c'].all Char.isDigit = true)
    (hr : inDoubleRange (decimalValue ['0'] (some ['0', '0', c, c'])) = true) : Literal :=
  ⟨['0'], some ['0', '0', c, c'], isDecimal_of_all rfl (by simpa using hd) (by simp), hr⟩

end Lark.Column.Biz.Dsl
