import Lark.Column.Biz.DslCorrect

namespace Lark.Column.Biz.Dsl

open Lark.Base Lark.Toolkit.Dsl Lark.Column.Exec

inductive Source where
  | column (name : String)
  | tensor (t : Tensor)

inductive Datum where
  | literal (v : Double)
  | source (s : Source)

def Source.read (store : TensorStore) : Source → Except Exn Tensor
  | column name =>
    match store.find name with
    | none => .error (.outOfRange ("OpContext::input: unknown tensor '" ++ name ++ "'"))
    | some t => .ok t
  | tensor t => .ok t

def readArg (store : TensorStore) (args : List Source) (i : Nat) : Except Exn Tensor :=
  match args[i]? with
  | none => .error (.undefined "inputs_ index out of range")
  | some s => s.read store

-- An operation on the values its arguments stand for, whatever names they have.
def invoke (libm : Libm) (store : TensorStore) (type : String) (attrs : List (String × String))
    (args : List Source) : Except Exn Tensor := do
  let kernel ← createKernel ⟨type, args.map fun _ => "", [], attrs⟩
  runKernel libm kernel (readArg store args)

section

variable (libm : Libm) (store : TensorStore)

def evalConst (x : Double) : Except Exn Tensor := do
  let text ← format x
  invoke libm store "const" [("value", text), ("size", "1")] []

def evalScalar (op : BinOp) (x : Double) (s : Source) : Except Exn Datum := do
  let text ← format x
  let t ← invoke libm store (op.baseName ++ "_scalar") [("scalar", text)] [s]
  .ok (.source (.tensor t))

def evalBinary (op : BinOp) : Datum → Datum → Except Exn Datum
  | .literal x, .literal y => .ok (.literal (op.fold x y))
  | .literal x, .source s => evalScalar libm store op x s
  | .source s, .literal y => evalScalar libm store op y s
  | .source s, .source s' => do
    let t ← invoke libm store op.baseName [] [s, s']
    .ok (.source (.tensor t))

def evalNeg : Datum → Except Exn Datum
  | .literal x => .ok (.literal (-x))
  | .source s => do
    let t ← invoke libm store "neg" [] [s]
    .ok (.source (.tensor t))

def evalArg : Datum → Except Exn Source
  | .literal x => do
    let t ← evalConst libm store x
    .ok (.tensor t)
  | .source s => .ok s

def evalCall (fn : String) (attrs : List (String × String)) (args : List Source) :
    Except Exn Datum := do
  let t ← invoke libm store fn attrs args
  .ok (.source (.tensor t))

def Term.eval : Term → Except Exn Datum
  | col name => .ok (.source (.column (String.ofList name)))
  | lit int frac => .ok (.literal (.num (decimalValue int frac)))
  | neg e => do
    let d ← e.eval
    evalNeg libm store d
  | paren e => e.eval
  | bin op l r => do
    let a ← l.eval
    let b ← r.eval
    evalBinary libm store op a b
  | call fn a => do
    let a ← a.eval
    let a ← evalArg libm store a
    evalCall libm store (String.ofList fn) [] [a]
  | pair fn a b => do
    let a ← a.eval
    let b ← b.eval
    let a ← evalArg libm store a
    let b ← evalArg libm store b
    evalCall libm store (String.ofList fn) [] [a, b]
  | select m a b => do
    let m ← m.eval
    let a ← a.eval
    let b ← b.eval
    let m ← evalArg libm store m
    let a ← evalArg libm store a
    let b ← evalArg libm store b
    evalCall libm store "select" [] [m, a, b]
  | cast a dtype => do
    let a ← a.eval
    let a ← evalArg libm store a
    evalCall libm store "cast" [("dtype", String.ofList dtype)] [a]

def evalAssign (target : String) : Datum → Except Exn TensorStore
  | .literal x => do
    let t ← evalConst libm store x
    .ok (store.set target t)
  | .source (.column name) =>
    if name = target then .ok store
    else do
      let t ← Source.read store (.column name)
      .ok (store.set target t)
  | .source (.tensor t) => .ok (store.set target t)

def Statement.eval (s : Statement) : Except Exn TensorStore := do
  let d ← s.term.eval libm store
  evalAssign libm store (String.ofList s.target) d

end

def evalProgram (libm : Libm) (prog : List Statement) (store : TensorStore) :
    Except Exn TensorStore :=
  prog.foldlM (fun store s => s.eval libm store) store

-- A step of the generator: it only ever appends to the operations.
structure Emitter (α : Type) where
  run : ParserState → Except Exn (α × ParserState)
  grows : ∀ st a st', run st = .ok (a, st') → st.ops <+: st'.ops

namespace Emitter

variable {α β : Type}

instance : Monad Emitter where
  pure a := ⟨fun st => .ok (a, st), by
    intro st b st' h
    obtain ⟨-, rfl⟩ := Prod.mk.inj (Except.ok.inj h)
    exact List.prefix_refl _⟩
  bind p k := ⟨fun st => do
      let (a, st) ← p.run st
      (k a).run st, by
    intro st b st' h
    obtain ⟨⟨a, st₁⟩, hp, hk⟩ := except_bind_eq_ok.mp h
    exact (p.grows st a st₁ hp).trans ((k a).grows st₁ b st' hk)⟩

def temp : Emitter String :=
  ⟨fun st => .ok st.temp, by
    intro st a st' h
    obtain rfl := congrArg Prod.snd (Except.ok.inj h)
    exact List.prefix_refl _⟩

def emit (spec : OpSpec) : Emitter Unit :=
  ⟨fun st => .ok ((), st.emit spec), by
    intro st a st' h
    obtain ⟨-, rfl⟩ := Prod.mk.inj (Except.ok.inj h)
    exact List.prefix_append _ _⟩

def print (x : Double) : Emitter String :=
  ⟨fun st => do
      let text ← format x
      .ok (text, st), by
    intro st a st' h
    obtain ⟨text, -, h⟩ := except_bind_eq_ok.mp h
    obtain ⟨-, rfl⟩ := Prod.mk.inj (Except.ok.inj h)
    exact List.prefix_refl _⟩

section

variable (st : ParserState)

@[simp] theorem run_pure (a : α) : (pure a : Emitter α).run st = .ok (a, st) := rfl

@[simp] theorem run_bind (p : Emitter α) (k : α → Emitter β) :
    (p >>= k).run st = p.run st >>= fun x => (k x.1).run x.2 := rfl

@[simp] theorem run_temp : temp.run st = .ok st.temp := rfl

@[simp] theorem run_emit (spec : OpSpec) : (emit spec).run st = .ok ((), st.emit spec) := rfl

@[simp] theorem run_print (x : Double) :
    (print x).run st = format x >>= fun text => .ok (text, st) := rfl

end

def named (out type : String) (attrs : List (String × String)) (inputs : List String) :
    Emitter String := do
  emit ⟨type, inputs, [out], attrs⟩
  pure out

def constant (out : String) (x : Double) : Emitter String := do
  let text ← print x
  named out "const" [("value", text), ("size", "1")] []

def scalar (op : BinOp) (x : Double) (a : String) : Emitter Value := do
  let out ← temp
  let text ← print x
  .named <$> named out (op.baseName ++ "_scalar") [("scalar", text)] [a]

def binary (op : BinOp) : Value → Value → Emitter Value
  | .literal x, .literal y => pure (.literal (op.fold x y))
  | .literal x, .named b => scalar op x b
  | .named a, .literal y => scalar op y a
  | .named a, .named b => do
    let out ← temp
    .named <$> named out op.baseName [] [a, b]

def negate : Value → Emitter Value
  | .literal x => pure (.literal (-x))
  | .named a => do
    let out ← temp
    .named <$> named out "neg" [] [a]

def argument : Value → Emitter String
  | .literal x => do
    let out ← temp
    constant out x
  | .named a => pure a

def assigned (lhs : String) : Value → Emitter Unit
  | .literal x => do
    let _ ← constant lhs x
    pure ()
  | .named a =>
    if a = lhs then pure ()
    else do
      let _ ← named lhs "identity" [] [a]
      pure ()

theorem run_map (f : α → β) (p : Emitter α) (st : ParserState) :
    (f <$> p).run st = p.run st >>= fun x => .ok (f x.1, x.2) := rfl

theorem binary_run (op : BinOp) (a b : Value) (st : ParserState) :
    (binary op a b).run st = makeBinary a b op st := by
  cases a with
  | literal x =>
    cases b with
    | literal y => rfl
    | named b => cases hf : format x <;> simp [binary, scalar, named, run_map, makeBinary, hf]
  | named a =>
    cases b with
    | literal y => cases hf : format y <;> simp [binary, scalar, named, run_map, makeBinary, hf]
    | named b => rfl

theorem negate_run (v : Value) (st : ParserState) :
    (negate v).run st = .ok (makeNeg v st) := by
  cases v <;> rfl

theorem argument_run (v : Value) (st : ParserState) :
    (argument v).run st = materialize v st := by
  cases v with
  | literal x => cases hf : format x <;> simp [argument, constant, named, materialize, hf]
  | named a => rfl

theorem assigned_run (lhs : String) (v : Value) (st : ParserState) :
    (assigned lhs v).run st = assign lhs v st >>= fun st => .ok ((), st) := by
  cases v with
  | literal x => cases hf : format x <;> simp [assigned, constant, named, assign, hf]
  | named a => by_cases ha : a = lhs <;> simp [assigned, named, assign, ha]

end Emitter

open Emitter

def Term.emitter : Term → Emitter Value
  | col name => pure (.named (String.ofList name))
  | lit int frac => pure (.literal (.num (decimalValue int frac)))
  | neg e => do
    let v ← e.emitter
    negate v
  | paren e => e.emitter
  | bin op l r => do
    let a ← l.emitter
    let b ← r.emitter
    binary op a b
  | call fn a => do
    let out ← temp
    let a ← a.emitter
    let a ← argument a
    .named <$> named out (String.ofList fn) [] [a]
  | pair fn a b => do
    let out ← temp
    let a ← a.emitter
    let b ← b.emitter
    let a ← argument a
    let b ← argument b
    .named <$> named out (String.ofList fn) [] [a, b]
  | select m a b => do
    let out ← temp
    let m ← m.emitter
    let a ← a.emitter
    let b ← b.emitter
    let m ← argument m
    let a ← argument a
    let b ← argument b
    .named <$> named out "select" [] [m, a, b]
  | cast a dtype => do
    let out ← temp
    let a ← a.emitter
    let a ← argument a
    .named <$> named out "cast" [("dtype", String.ofList dtype)] [a]

theorem Term.emitter_run (e : Term) (st : ParserState) : e.emitter.run st = e.gen st := by
  induction e generalizing st with
  | col name => rfl
  | lit int frac => rfl
  | neg e ih => simp only [Term.emitter, Term.gen, run_bind, ih, negate_run]
  | paren e ih => exact ih st
  | bin op l r ihl ihr => simp only [Term.emitter, Term.gen, run_bind, ihl, ihr, binary_run]
  | call fn a ih =>
    simp only [Term.emitter, Term.gen, run_bind, run_temp, except_ok_bind, ih, argument_run]
    rfl
  | pair fn a b iha ihb =>
    simp only [Term.emitter, Term.gen, run_bind, run_temp, except_ok_bind, iha, ihb, argument_run]
    rfl
  | select m a b ihm iha ihb =>
    simp only [Term.emitter, Term.gen, run_bind, run_temp, except_ok_bind, ihm, iha, ihb,
      argument_run]
    rfl
  | cast a dtype ih =>
    simp only [Term.emitter, Term.gen, run_bind, run_temp, except_ok_bind, ih, argument_run]
    rfl

theorem createKernel_congr {type : String} {attrs : List (String × String)}
    {inputs inputs' outputs : List String} (outputs' : List String)
    (h : inputs.length = inputs'.length) :
    createKernel ⟨type, inputs, outputs, attrs⟩ = createKernel ⟨type, inputs', outputs', attrs⟩ := by
  have hspecial : createSpecialOp ⟨type, inputs, outputs, attrs⟩ =
      createSpecialOp ⟨type, inputs', outputs', attrs⟩ := by
    unfold createSpecialOp
    dsimp only
    rw [h]
    rfl
  unfold createKernel
  rw [hspecial]
  rfl

theorem runOps_append (libm : Libm) (specs specs' : List OpSpec) (store : TensorStore) :
    runOps libm (specs ++ specs') store = runOps libm specs store >>= runOps libm specs' := by
  simp only [runOps, List.foldlM_append]
  rfl

inductive Stands (lo hi : Nat) (run : TensorStore) : String → Source → Prop
  | column {name} (h : ∀ k, name ≠ tempName k) : Stands lo hi run name (.column name)
  | temp {k t} (hlo : lo ≤ k) (hhi : k < hi) (h : run.find (tempName k) = some t) :
      Stands lo hi run (tempName k) (.tensor t)

inductive Means (lo hi : Nat) (run : TensorStore) : Value → Datum → Prop
  | literal (x : Double) : Means lo hi run (.literal x) (.literal x)
  | named {name s} (h : Stands lo hi run name s) : Means lo hi run (.named name) (.source s)

def Agrees (store run : TensorStore) : Prop :=
  ∀ c, (∀ k, c ≠ tempName k) → run.find c = store.find c

def Keeps (n : Nat) (run run' : TensorStore) : Prop :=
  ∀ k < n, run'.find (tempName k) = run.find (tempName k)

section

variable {lo lo' hi hi' : Nat} {run run' store : TensorStore} {name : String} {s : Source}

theorem Stands.ne_temp (h : Stands lo hi run name s) {k : Nat} (hk : k < lo ∨ hi ≤ k) :
    name ≠ tempName k := by
  cases h with
  | column h => exact h k
  | temp hlo hhi _ =>
    intro he
    have := tempName_inj he
    omega

theorem Stands.mono (h : Stands lo hi run name s) (hlo : lo' ≤ lo) (hhi : hi ≤ hi')
    (hk : Keeps hi run run') : Stands lo' hi' run' name s := by
  cases h with
  | column h => exact .column h
  | temp hl hh h => exact .temp (hlo.trans hl) (hh.trans_le hhi) ((hk _ hh).trans h)

theorem Means.mono {v : Value} {d : Datum} (h : Means lo hi run v d) (hlo : lo' ≤ lo)
    (hhi : hi ≤ hi') (hk : Keeps hi run run') : Means lo' hi' run' v d := by
  cases h with
  | literal x => exact .literal x
  | named h => exact .named (h.mono hlo hhi hk)

theorem Stands.read_eq (h : Stands lo hi run name s) (ha : Agrees store run) (op : Op) {i : Nat}
    (hi : op.inputs[i]? = some name) : op.input run i = s.read store := by
  cases h with
  | column h =>
    cases hfind : store.find name with
    | none => simp only [Op.input, hi, Source.read, ha _ h, hfind]
    | some t => simp only [Op.input, hi, Source.read, ha _ h, hfind]
  | temp _ _ h => simp only [Op.input, hi, Source.read, h]

theorem input_stands {op : Op} {args : List Source} (ha : Agrees store run)
    (h : List.Forall₂ (Stands lo hi run) op.inputs args) :
    op.input run = readArg store args := by
  funext i
  have hlen := h.length_eq
  unfold readArg
  cases hs : args[i]? with
  | none =>
    have hnone : op.inputs[i]? = none := by
      rw [List.getElem?_eq_none_iff] at hs ⊢
      omega
    simp only [Op.input, hnone]
  | some s =>
    obtain ⟨hlt, rfl⟩ := List.getElem?_eq_some_iff.mp hs
    have hname := List.getElem?_eq_getElem (lt_of_lt_of_eq hlt hlen.symm)
    exact (h.get (lt_of_lt_of_eq hlt hlen.symm) hlt).read_eq ha op hname

theorem tempName_notMem {inputs : List String} {args : List Source}
    (h : List.Forall₂ (Stands lo hi run) inputs args) {k : Nat} (hk : k < lo ∨ hi ≤ k) :
    tempName k ∉ inputs := by
  induction h with
  | nil => simp
  | cons hs _ ih => simp [(hs.ne_temp hk).symm, ih]

theorem compute_invoke {libm : Libm} {type out : String} {attrs : List (String × String)}
    {inputs : List String} {args : List Source} (ha : Agrees store run)
    (h : List.Forall₂ (Stands lo hi run) inputs args) (hout : out ∉ inputs) :
    runOps libm [⟨type, inputs, [out], attrs⟩] run =
      invoke libm store type attrs args >>= fun t => .ok (run.set out t) := by
  have hlen : inputs.length = (args.map fun _ => "").length := by simpa using h.length_eq
  have hanchor : ∀ kernel, Op.isAnchor ⟨type, inputs, [out], kernel⟩ = false := by
    intro kernel
    have hhead : inputs.head? ≠ some out := fun he => hout (List.mem_of_mem_head? he)
    simp [Op.isAnchor, hhead]
  simp only [runOps, List.foldlM_cons, List.foldlM_nil, createOp, invoke,
    createKernel_congr [] hlen, bind_assoc, bind_pure]
  cases createKernel ⟨type, args.map fun _ => "", [], attrs⟩ with
  | error e => rfl
  | ok kernel =>
    have hinput : Op.input ⟨type, inputs, [out], kernel⟩ run = readArg store args :=
      input_stands ha h
    simp only [except_ok_bind, Op.compute, hanchor, Bool.false_eq_true, if_false, hinput]
    rfl

end

section

variable (libm : Libm) (start store : TensorStore)

structure Stage (st : ParserState) (run : TensorStore) : Prop where
  reached : runOps libm st.ops start = .ok run
  agrees : Agrees store run

def Dead (st : ParserState) : Prop := ∃ e, runOps libm st.ops start = .error e

abbrev Interp (α β : Type) : Type := Nat → TensorStore → β → α → Prop

-- The generator's operations compute the value: a failure shows when they are generated or run,
-- and the temporaries below `n` keep what they held.
def Refines {α β : Type} (n : Nat) (st : ParserState) (run : TensorStore) (H : Interp α β)
    (r : Except Exn α) (p : Emitter β) : Prop :=
  match r with
  | .ok a => ∃ b st' run', p.run st = .ok (b, st') ∧ Stage libm start store st' run' ∧
      st.tmp ≤ st'.tmp ∧ Keeps n run run' ∧ H st'.tmp run' b a
  | .error _ => ∀ b st', p.run st = .ok (b, st') → Dead libm start st'

end

section

variable {libm : Libm} {start store : TensorStore} {st st' : ParserState}
  {run : TensorStore} {n : Nat} {α β α' β' : Type}

theorem Dead.mono (h : Dead libm start st) (hp : st.ops <+: st'.ops) : Dead libm start st' := by
  obtain ⟨e, he⟩ := h
  obtain ⟨specs, hs⟩ := hp
  refine ⟨e, ?_⟩
  rw [← hs, runOps_append, he]
  rfl

namespace Refines

variable {H : Interp α β} {H' : Interp α' β'} {r : Except Exn α} {p : Emitter β}

theorem pure {a : α} {b : β} (h : Stage libm start store st run) (hab : H st.tmp run b a) :
    Refines libm start store n st run H (.ok a) (pure b) :=
  ⟨b, st, run, rfl, h, le_rfl, fun _ _ => rfl, hab⟩

theorem bind {m : Nat} {k : α → Except Exn α'} {k' : β → Emitter β'} (hnm : n ≤ m)
    (h : Refines libm start store m st run H r p)
    (hk : ∀ a b st' run', Stage libm start store st' run' → st.tmp ≤ st'.tmp → Keeps m run run' →
      H st'.tmp run' b a → Refines libm start store n st' run' H' (k a) (k' b)) :
    Refines libm start store n st run H' (r >>= k) (p >>= k') := by
  cases r with
  | error e =>
    intro b' st'' hrun
    obtain ⟨⟨b, st'⟩, hp, hk'⟩ := except_bind_eq_ok.mp hrun
    exact (h b st' hp).mono ((k' b).grows st' b' st'' hk')
  | ok a =>
    obtain ⟨b, st', run', hp, hst, htmp, hkeep, hab⟩ := h
    have hnext := hk a b st' run' hst htmp hkeep hab
    have hbind : (p >>= k').run st = (k' b).run st' := by
      rw [run_bind, hp]
      rfl
    rw [except_ok_bind]
    cases hka : k a with
    | error e =>
      rw [hka] at hnext
      intro b' st'' hrun
      exact hnext b' st'' (hbind ▸ hrun)
    | ok a' =>
      rw [hka] at hnext
      obtain ⟨b', st'', run'', hp', hst', htmp', hkeep', hab'⟩ := hnext
      refine ⟨b', st'', run'', hbind.trans hp', hst', htmp.trans htmp', ?_, hab'⟩
      intro i hi
      exact (hkeep' i hi).trans (hkeep i (hi.trans_le hnm))

theorem temp {k : String → Emitter β}
    (h : Refines libm start store n st.temp.2 run H r (k st.temp.1)) :
    Refines libm start store n st run H r (temp >>= k) := by
  cases r with
  | error e => exact h
  | ok a =>
    obtain ⟨b, st', run', hp, hst, htmp, hkeep, hab⟩ := h
    exact ⟨b, st', run', hp, hst, (Nat.le_succ _).trans htmp, hkeep, hab⟩

theorem print {x : Double} {k : String → Except Exn α} {k' : String → Emitter β}
    (h : ∀ text, Refines libm start store n st run H (k text) (k' text)) :
    Refines libm start store n st run H (format x >>= k) (print x >>= k') := by
  cases hf : format x with
  | error e =>
    intro b st' hrun
    simp [hf] at hrun
  | ok text =>
    have hrun : (Emitter.print x >>= k').run st = (k' text).run st := by simp [hf]
    have htext := h text
    rw [except_ok_bind]
    unfold Refines at htext ⊢
    rw [hrun]
    exact htext

theorem imp {f : α → α'} {H' : Interp α' β} (h : Refines libm start store n st run H r p)
    (hf : ∀ hi run b a, H hi run b a → H' hi run b (f a)) :
    Refines libm start store n st run H' (r >>= fun a => .ok (f a)) p := by
  cases r with
  | error e => exact h
  | ok a =>
    obtain ⟨b, st', run', hp, hst, htmp, hkeep, hab⟩ := h
    exact ⟨b, st', run', hp, hst, htmp, hkeep, hf _ _ _ _ hab⟩

theorem map {g : β → β'} {H' : Interp α β'} (h : Refines libm start store n st run H r p)
    (hg : ∀ hi run b a, H hi run b a → H' hi run (g b) a) :
    Refines libm start store n st run H' r (g <$> p) := by
  cases r with
  | error e =>
    intro b' st' hrun
    obtain ⟨⟨b, st₁⟩, hp, hb⟩ := except_bind_eq_ok.mp hrun
    obtain ⟨-, rfl⟩ := Prod.mk.inj (Except.ok.inj hb)
    exact h b _ hp
  | ok a =>
    obtain ⟨b, st', run', hp, hst, htmp, hkeep, hab⟩ := h
    refine ⟨g b, st', run', ?_, hst, htmp, hkeep, hg _ _ _ _ hab⟩
    rw [run_map, hp]
    rfl

variable {lo hi k : Nat} {type : String} {attrs : List (String × String)} {inputs : List String}
  {args : List Source}

theorem named (hst : Stage libm start store st run) (hn : n ≤ k) (hk : k < st.tmp)
    (h : List.Forall₂ (Stands lo hi run) inputs args) (hout : k < lo ∨ hi ≤ k) :
    Refines libm start store n st run (fun hi run name t => Stands n hi run name (.tensor t))
      (invoke libm store type attrs args) (named (tempName k) type attrs inputs) := by
  have hnotin := tempName_notMem h hout
  have hrun : runOps libm (st.emit ⟨type, inputs, [tempName k], attrs⟩).ops start =
      invoke libm store type attrs args >>= fun t => .ok (run.set (tempName k) t) := by
    rw [← compute_invoke hst.agrees h hnotin]
    simp only [ParserState.emit, runOps_append, hst.reached, except_ok_bind]
  cases hi : invoke libm store type attrs args with
  | error e =>
    intro b st' he
    obtain ⟨-, rfl⟩ := Prod.mk.inj (Except.ok.inj he)
    exact ⟨e, by rw [hrun, hi]; rfl⟩
  | ok t =>
    rw [hi] at hrun
    refine ⟨tempName k, _, run.set (tempName k) t, rfl, ⟨hrun, ?_⟩, le_rfl, ?_, ?_⟩
    · intro c hc
      rw [TensorStore.set_find_of_ne _ _ _ (hc k)]
      exact hst.agrees c hc
    · intro i hi
      refine TensorStore.set_find_of_ne _ _ _ fun he => ?_
      have := tempName_inj he
      omega
    · exact .temp hn hk (by simp)

theorem source (hst : Stage libm start store st run) (hn : n ≤ k) (hk : k < st.tmp)
    (h : List.Forall₂ (Stands lo hi run) inputs args) (hout : k < lo ∨ hi ≤ k) :
    Refines libm start store n st run (Means n)
      (invoke libm store type attrs args >>= fun t => .ok (.source (.tensor t)))
      (Value.named <$> Emitter.named (tempName k) type attrs inputs) := by
  have hnamed : Refines libm start store n st run
      (fun hi run v t => Means n hi run v (.source (.tensor t)))
      (invoke libm store type attrs args)
      (Value.named <$> Emitter.named (tempName k) type attrs inputs) :=
    (named hst hn hk h hout).map fun _ _ _ _ h => .named h
  exact hnamed.imp fun _ _ _ _ h => h

end Refines

end

section

variable {libm : Libm} {start store : TensorStore} {st : ParserState} {run : TensorStore} {n : Nat}
  {name name' : String} {s s' : Source} {v v' : Value} {d d' : Datum}

theorem Stage.temp (h : Stage libm start store st run) : Stage libm start store st.temp.2 run :=
  ⟨h.reached, h.agrees⟩

theorem refines_scalar (op : BinOp) (x : Double) (hst : Stage libm start store st run)
    (hn : n ≤ st.tmp) (h : Stands n st.tmp run name s) :
    Refines libm start store n st run (Means n) (evalScalar libm store op x s)
      (scalar op x name) := by
  refine .temp (.print fun text => ?_)
  exact .source hst.temp hn (Nat.lt_succ_self _) (.cons h .nil) (.inr le_rfl)

theorem refines_binary (op : BinOp) (hst : Stage libm start store st run) (hn : n ≤ st.tmp)
    (h : Means n st.tmp run v d) (h' : Means n st.tmp run v' d') :
    Refines libm start store n st run (Means n) (evalBinary libm store op d d')
      (binary op v v') := by
  cases h with
  | literal x =>
    cases h' with
    | literal y => exact .pure hst (.literal _)
    | named h' => exact refines_scalar op x hst hn h'
  | named h =>
    cases h' with
    | literal y => exact refines_scalar op y hst hn h
    | named h' =>
      exact .temp (.source hst.temp hn (Nat.lt_succ_self _) (.cons h (.cons h' .nil))
        (.inr le_rfl))

theorem refines_negate (hst : Stage libm start store st run) (hn : n ≤ st.tmp)
    (h : Means n st.tmp run v d) :
    Refines libm start store n st run (Means n) (evalNeg libm store d) (negate v) := by
  cases h with
  | literal x => exact .pure hst (.literal _)
  | named h =>
    exact .temp (.source hst.temp hn (Nat.lt_succ_self _) (.cons h .nil) (.inr le_rfl))

theorem refines_constant (x : Double) {k : Nat} (hst : Stage libm start store st run) (hn : n ≤ k)
    (hk : k < st.tmp) :
    Refines libm start store n st run (fun hi run name t => Stands n hi run name (.tensor t))
      (evalConst libm store x) (constant (tempName k) x) := by
  have hnil : List.Forall₂ (Stands 0 0 run) [] [] := .nil
  exact .print fun _ => .named hst hn hk hnil (.inr (Nat.zero_le _))

theorem refines_argument (hst : Stage libm start store st run) (hn : n ≤ st.tmp)
    (h : Means n st.tmp run v d) :
    Refines libm start store st.tmp st run (Stands n) (evalArg libm store d) (argument v) := by
  cases h with
  | literal x =>
    have hconst := refines_constant (n := st.tmp) x hst.temp le_rfl (Nat.lt_succ_self _)
    refine .temp (hconst.imp fun _ _ _ _ h => ?_)
    exact h.mono hn le_rfl fun _ _ => rfl
  | named h => exact .pure hst h

theorem Term.refines {e : Term} (hwf : e.WellFormed) (hst : Stage libm start store st run) :
    Refines libm start store st.tmp st run (Means st.tmp) (e.eval libm store) e.emitter := by
  induction e generalizing st run with
  | col name => exact .pure hst (.named (.column fun k => ident_ne_tempName hwf k))
  | lit int frac => exact .pure hst (.literal _)
  | neg e ih =>
    refine .bind le_rfl (ih hwf.1 hst) fun d v st₁ run₁ hst₁ htmp₁ _ hd => ?_
    exact refines_negate hst₁ htmp₁ hd
  | paren e ih => exact ih hwf hst
  | bin op l r ihl ihr =>
    refine .bind le_rfl (ihl hwf.1 hst) fun a va st₁ run₁ hst₁ htmp₁ _ ha => ?_
    refine .bind htmp₁ (ihr hwf.2.1 hst₁) fun b vb st₂ run₂ hst₂ htmp₂ hkeep₂ hb => ?_
    exact refines_binary op hst₂ (htmp₁.trans htmp₂) (ha.mono le_rfl htmp₂ hkeep₂)
      (hb.mono htmp₁ le_rfl fun _ _ => rfl)
  | call fn a ih =>
    have htemp : st.tmp ≤ st.temp.2.tmp := Nat.le_succ _
    refine .temp (.bind htemp (ih hwf.2.2 hst.temp) fun a va st₁ run₁ hst₁ htmp₁ _ ha => ?_)
    refine .bind (htemp.trans htmp₁) (refines_argument hst₁ htmp₁ ha)
      fun sa na st₂ run₂ hst₂ htmp₂ _ hna => ?_
    exact .source hst₂ le_rfl (htmp₁.trans htmp₂) (.cons hna .nil) (.inl (Nat.lt_succ_self _))
  | pair fn a b iha ihb =>
    have htemp : st.tmp ≤ st.temp.2.tmp := Nat.le_succ _
    refine .temp (.bind htemp (iha hwf.2.2.1 hst.temp) fun a va st₁ run₁ hst₁ h₁ _ ha => ?_)
    refine .bind (htemp.trans h₁) (ihb hwf.2.2.2 hst₁) fun b vb st₂ run₂ hst₂ h₂ k₂ hb => ?_
    have h₂' := h₁.trans h₂
    refine .bind (htemp.trans h₂') (refines_argument hst₂ h₂' (ha.mono le_rfl h₂ k₂))
      fun sa na st₃ run₃ hst₃ h₃ k₃ hna => ?_
    have h₃' := h₂'.trans h₃
    refine .bind (htemp.trans h₃') (refines_argument hst₃ h₃' (hb.mono h₁ h₃ k₃))
      fun sb nb st₄ run₄ hst₄ h₄ k₄ hnb => ?_
    exact .source hst₄ le_rfl (h₃'.trans h₄) (.cons (hna.mono le_rfl h₄ k₄) (.cons hnb .nil))
      (.inl (Nat.lt_succ_self _))
  | select m a b ihm iha ihb =>
    have htemp : st.tmp ≤ st.temp.2.tmp := Nat.le_succ _
    refine .temp (.bind htemp (ihm hwf.1 hst.temp) fun m vm st₁ run₁ hst₁ h₁ _ hm => ?_)
    refine .bind (htemp.trans h₁) (iha hwf.2.1 hst₁) fun a va st₂ run₂ hst₂ h₂ k₂ ha => ?_
    have h₂' := h₁.trans h₂
    refine .bind (htemp.trans h₂') (ihb hwf.2.2 hst₂) fun b vb st₃ run₃ hst₃ h₃ k₃ hb => ?_
    have h₃' := h₂'.trans h₃
    have hm := (hm.mono le_rfl h₂ k₂).mono le_rfl h₃ k₃
    refine .bind (htemp.trans h₃') (refines_argument hst₃ h₃' hm)
      fun sm nm st₄ run₄ hst₄ h₄ k₄ hnm => ?_
    have h₄' := h₃'.trans h₄
    have ha := (ha.mono h₁ h₃ k₃).mono le_rfl h₄ k₄
    refine .bind (htemp.trans h₄') (refines_argument hst₄ h₄' ha)
      fun sa na st₅ run₅ hst₅ h₅ k₅ hna => ?_
    have h₅' := h₄'.trans h₅
    have hb := (hb.mono h₂' h₄ k₄).mono le_rfl h₅ k₅
    refine .bind (htemp.trans h₅') (refines_argument hst₅ h₅' hb)
      fun sb nb st₆ run₆ hst₆ h₆ k₆ hnb => ?_
    have hnm := (hnm.mono le_rfl h₅ k₅).mono le_rfl h₆ k₆
    exact .source hst₆ le_rfl (h₅'.trans h₆)
      (.cons hnm (.cons (hna.mono le_rfl h₆ k₆) (.cons hnb .nil))) (.inl (Nat.lt_succ_self _))
  | cast a dtype ih =>
    have htemp : st.tmp ≤ st.temp.2.tmp := Nat.le_succ _
    refine .temp (.bind htemp (ih hwf.1 hst.temp) fun a va st₁ run₁ hst₁ htmp₁ _ ha => ?_)
    refine .bind (htemp.trans htmp₁) (refines_argument hst₁ htmp₁ ha)
      fun sa na st₂ run₂ hst₂ htmp₂ _ hna => ?_
    exact .source hst₂ le_rfl (htmp₁.trans htmp₂) (.cons hna .nil) (.inl (Nat.lt_succ_self _))

theorem Agrees.set {store run : TensorStore} (h : Agrees store run) (target : String) (t : Tensor) :
    Agrees (store.set target t) (run.set target t) := by
  intro c hc
  by_cases hct : c = target
  · subst hct
    simp
  · rw [TensorStore.set_find_of_ne _ _ _ hct, TensorStore.set_find_of_ne _ _ _ hct]
    exact h c hc

theorem invoke_identity (libm : Libm) (store : TensorStore) (s : Source) :
    invoke libm store "identity" [] [s] = s.read store := rfl

def Advances (libm : Libm) (start : TensorStore) (r : Except Exn TensorStore)
    (p : Except Exn ParserState) : Prop :=
  match r with
  | .ok store => ∃ st run, p = .ok st ∧ Stage libm start store st run
  | .error _ => ∀ st, p = .ok st → Dead libm start st

theorem advances_emit {type target : String} {attrs : List (String × String)}
    {inputs : List String} {args : List Source} {lo hi : Nat}
    (hst : Stage libm start store st run) (h : List.Forall₂ (Stands lo hi run) inputs args)
    (htarget : target ∉ inputs) :
    Advances libm start (invoke libm store type attrs args >>= fun t => .ok (store.set target t))
      (.ok (st.emit ⟨type, inputs, [target], attrs⟩)) := by
  have hrun : runOps libm (st.emit ⟨type, inputs, [target], attrs⟩).ops start =
      invoke libm store type attrs args >>= fun t => .ok (run.set target t) := by
    rw [← compute_invoke hst.agrees h htarget]
    simp only [ParserState.emit, runOps_append, hst.reached, except_ok_bind]
  cases hi : invoke libm store type attrs args with
  | error e =>
    rintro st' he
    obtain rfl := Except.ok.inj he
    exact ⟨e, by rw [hrun, hi]; rfl⟩
  | ok t =>
    rw [hi] at hrun
    exact ⟨_, run.set target t, rfl, hrun, hst.agrees.set target t⟩

theorem advances_assign {lo hi : Nat} {target : String} (htarget : ∀ k, target ≠ tempName k)
    (hst : Stage libm start store st run) (h : Means lo hi run v d) :
    Advances libm start (evalAssign libm store target d) (assign target v st) := by
  cases h with
  | literal x =>
    have hnil : List.Forall₂ (Stands 0 0 run) [] [] := .nil
    simp only [evalAssign, evalConst, assign, bind_assoc]
    cases format x with
    | error e => exact fun st' he => by cases he
    | ok text => exact advances_emit hst hnil (by simp)
  | @named name s h =>
    by_cases hname : name = target
    · subst hname
      cases h with
      | column _ =>
        simp only [evalAssign, assign, if_true]
        exact ⟨st, run, rfl, hst⟩
      | temp _ _ _ => exact absurd rfl (htarget _)
    · have heval : evalAssign libm store target (.source s) =
          invoke libm store "identity" [] [s] >>= fun t => .ok (store.set target t) := by
        rw [invoke_identity]
        cases h with
        | column _ => simp only [evalAssign, if_neg hname]
        | temp _ _ _ => rfl
      rw [heval, assign, if_neg hname]
      exact advances_emit hst (.cons h .nil) (by simpa using Ne.symm hname)

theorem assign_grows {target : String} {st' : ParserState} (h : assign target v st = .ok st') :
    st.ops <+: st'.ops := by
  have hrun : (assigned target v).run st = .ok ((), st') := by
    rw [assigned_run, h]
    rfl
  exact (assigned target v).grows st () st' hrun

theorem Statement.advances {s : Statement} (hwf : s.WellFormed)
    (hst : Stage libm start store st run) :
    Advances libm start (s.eval libm store) (s.gen st) := by
  have hterm := Term.refines hwf.term hst
  have htarget : ∀ k, String.ofList s.target ≠ tempName k := ident_ne_tempName hwf.target
  unfold Refines at hterm
  simp only [Term.emitter_run] at hterm
  unfold Statement.eval Statement.gen
  cases hd : s.term.eval libm store with
  | error e =>
    rw [hd] at hterm
    intro st' hgen
    obtain ⟨⟨v, st₁⟩, hv, hassign⟩ := except_bind_eq_ok.mp hgen
    exact (hterm v st₁ hv).mono (assign_grows hassign)
  | ok d =>
    rw [hd] at hterm
    obtain ⟨v, st₁, run₁, hv, hst₁, -, -, hmeans⟩ := hterm
    rw [hv]
    exact advances_assign htarget hst₁ hmeans

theorem Statement.grows {s : Statement} {st' : ParserState} (h : s.gen st = .ok st') :
    st.ops <+: st'.ops := by
  obtain ⟨⟨v, st₁⟩, hv, hassign⟩ := except_bind_eq_ok.mp h
  rw [← Term.emitter_run] at hv
  exact (s.term.emitter.grows st v st₁ hv).trans (assign_grows hassign)

theorem genProgram_grows {prog : List Statement} {st' : ParserState}
    (h : genProgram prog st = .ok st') : st.ops <+: st'.ops := by
  induction prog generalizing st with
  | nil =>
    obtain rfl := Except.ok.inj h
    exact List.prefix_refl _
  | cons s prog ih =>
    rw [genProgram, List.foldlM_cons] at h
    obtain ⟨st₁, hs, hrest⟩ := except_bind_eq_ok.mp h
    exact (Statement.grows hs).trans (ih hrest)

theorem program_advances {prog : List Statement} (hwf : ∀ s ∈ prog, s.WellFormed)
    (hst : Stage libm start store st run) :
    Advances libm start (evalProgram libm prog store) (genProgram prog st) := by
  induction prog generalizing store st run with
  | nil => exact ⟨st, run, rfl, hst⟩
  | cons s prog ih =>
    have hstep := Statement.advances (hwf s (by simp)) hst
    unfold evalProgram genProgram
    rw [List.foldlM_cons, List.foldlM_cons]
    cases hs : s.eval libm store with
    | error e =>
      rw [hs] at hstep
      intro st' hgen
      obtain ⟨st₁, hs₁, hrest⟩ := except_bind_eq_ok.mp hgen
      exact (hstep st₁ hs₁).mono (genProgram_grows hrest)
    | ok store₁ =>
      rw [hs] at hstep
      obtain ⟨st₁, run₁, hs₁, hst₁⟩ := hstep
      rw [hs₁]
      exact ih (fun s' hs' => hwf s' (by simp [hs'])) hst₁

end

-- What a literal's text can carry: an integer of 64 bits, or six fractional digits in range.
def Printable (x : ℚ) : Prop :=
  if (⌊x⌋ : ℚ) = x then FitsInt64 ⌊x⌋ else inDoubleRange (fixedValue x) = true

theorem fixedValue_integral {x : ℚ} (h : (⌊x⌋ : ℚ) = x) : fixedValue x = x := by
  rw [fixedValue_eq_iff, ← h, show (⌊x⌋ : ℚ) * 10 ^ 6 = ((⌊x⌋ * 10 ^ 6 : Int) : ℚ) by push_cast; ring]
  exact Rat.den_intCast _

theorem format_fits {x : ℚ} (h : (⌊x⌋ : ℚ) = x) (hfit : FitsInt64 ⌊x⌋) :
    format (.num x) = .ok (intToString ⌊x⌋) := by
  have hint : Double.toInt 64 (.num x) = some ⌊x⌋ := by
    rw [← h, Int.floor_intCast]
    exact Double.toInt_intCast 64 hfit
  simp only [format, h, if_true, hint]

theorem format_overflow {x : ℚ} (h : (⌊x⌋ : ℚ) = x) (hfit : ¬ FitsInt64 ⌊x⌋) :
    format (.num x) = .error castUndefined := by
  have htrunc : Double.truncate x = ⌊x⌋ := by
    rw [← h]
    simp [Double.truncate]
  have hint : Double.toInt 64 (.num x) = none := by
    rw [Double.toInt_num, htrunc]
    exact if_neg hfit
  simp only [format, h, if_true, hint]

theorem format_fixed {x : ℚ} (h : (⌊x⌋ : ℚ) ≠ x) : format (.num x) = .ok (fixedToString x) := by
  simp only [format, h, if_false]

theorem stod_format (x : ℚ) (v : Double) :
    (format (.num x) >>= stod) = .ok v ↔ Printable x ∧ v = .num (fixedValue x) := by
  by_cases hx : (⌊x⌋ : ℚ) = x
  · rw [Printable, if_pos hx, fixedValue_integral hx]
    by_cases hfit : FitsInt64 ⌊x⌋
    · rw [format_fits hx hfit, except_ok_bind, stod_intToString (inDoubleRange_fits hfit), hx]
      simp [hfit, eq_comm]
    · rw [format_overflow hx hfit]
      simp [hfit]
  · rw [Printable, if_neg hx, format_fixed hx, except_ok_bind, stod_fixed]
    by_cases hr : inDoubleRange (fixedValue x) = true
    · simp [hr, eq_comm]
    · simp [hr]

theorem comma_notMem_format {x : ℚ} {text : String} (h : format (.num x) = .ok text) :
    ',' ∉ text.toList := by
  by_cases hx : (⌊x⌋ : ℚ) = x
  · by_cases hfit : FitsInt64 ⌊x⌋
    · obtain rfl := Except.ok.inj ((format_fits hx hfit).symm.trans h)
      simpa [intToString] using comma_notMem_int ⌊x⌋
    · simp [format_overflow hx hfit] at h
  · obtain rfl := Except.ok.inj ((format_fixed hx).symm.trans h)
    simpa [fixedToString] using comma_notMem_fixed x

theorem invoke_const (libm : Libm) (store : TensorStore) {text : String}
    (h : ',' ∉ text.toList) :
    invoke libm store "const" [("value", text), ("size", "1")] [] =
      stod text >>= fun v => .ok (.scalar .float64 [v]) := by
  have hkernel : createKernel ⟨"const", [], [], [("value", text), ("size", "1")]⟩ =
      .ok (.const text "float64" "1") := rfl
  have hsize : stoull "1" = .ok 1 := by decide +kernel
  have hcontains : text.toList.contains ',' = false := by simpa using h
  simp only [invoke, List.map_nil, hkernel, except_ok_bind, runKernel, hsize, buildConst,
    hcontains]
  rfl

theorem evalConst_num (libm : Libm) (store : TensorStore) (x : ℚ) (t : Tensor) :
    evalConst libm store (.num x) = .ok t ↔
      Printable x ∧ t = .scalar .float64 [.num (fixedValue x)] := by
  have hconst : evalConst libm store (.num x) =
      (format (.num x) >>= stod) >>= fun v => .ok (.scalar .float64 [v]) := by
    rw [evalConst, bind_assoc]
    cases hf : format (.num x) with
    | error e => rw [except_error_bind, except_error_bind]
    | ok text =>
      rw [except_ok_bind, except_ok_bind]
      exact invoke_const libm store (comma_notMem_format hf)
  rw [hconst, except_bind_eq_ok]
  constructor
  · rintro ⟨v, hv, ht⟩
    obtain ⟨hp, rfl⟩ := (stod_format x v).mp hv
    exact ⟨hp, (Except.ok.inj ht).symm⟩
  · rintro ⟨hp, rfl⟩
    exact ⟨_, (stod_format x _).mpr ⟨hp, rfl⟩, rfl⟩

def runSource (libm : Libm) (source : String) (store : TensorStore) : Except Exn TensorStore := do
  let specs ← parse source
  runOps libm specs store

def Matched (r r' : Except Exn TensorStore) : Prop :=
  match r, r' with
  | .ok store, .ok run => Agrees store run
  | .error _, .error _ => True
  | _, _ => False

theorem runSource_matches (libm : Libm) {prog : List Statement} {source : List Char}
    (h : RendersProgram prog source) (hwf : ∀ s ∈ prog, s.WellFormed) (store : TensorStore) :
    Matched (evalProgram libm prog store) (runSource libm (String.ofList source) store) := by
  have lx : Lexer := .make "" [] []
  have hstart : Stage libm store store ⟨lx, [], 0⟩ store := ⟨rfl, fun _ _ => rfl⟩
  have hadv := program_advances hwf hstart
  rw [runSource, parse_program h hwf lx]
  generalize genProgram prog ⟨lx, [], 0⟩ = p at hadv
  cases he : evalProgram libm prog store with
  | error e =>
    rw [he] at hadv
    cases p with
    | error e' => trivial
    | ok st =>
      obtain ⟨e', hrun⟩ := hadv st rfl
      simp only [Except.map, except_ok_bind, hrun]
      trivial
  | ok store' =>
    rw [he] at hadv
    obtain ⟨st, run, rfl, hst⟩ := hadv
    simp only [Except.map, except_ok_bind, hst.reached]
    exact hst.agrees

theorem runSource_find_iff (libm : Libm) {prog : List Statement} {source : List Char}
    (h : RendersProgram prog source) (hwf : ∀ s ∈ prog, s.WellFormed) (store : TensorStore)
    {c : String} (hc : ∀ k, c ≠ tempName k) (t : Tensor) :
    (∃ run, runSource libm (String.ofList source) store = .ok run ∧ run.find c = some t) ↔
      ∃ store', evalProgram libm prog store = .ok store' ∧ store'.find c = some t := by
  have hmatch := runSource_matches libm h hwf store
  unfold Matched at hmatch
  split at hmatch
  · rename_i store' run heval hrun
    rw [heval, hrun]
    simp [hmatch c hc]
  · rename_i e e' heval hrun
    rw [heval, hrun]
    simp
  · exact hmatch.elim

end Lark.Column.Biz.Dsl
