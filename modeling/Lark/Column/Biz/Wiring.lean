import Lark.Base.Fold
import Lark.Column.Biz.PipelineCompiler

namespace Lark.Column.Biz

open Lark.Base Lark.Column.Exec

inductive NodeKey where
  | input (module port : String)
  | op (module : String) (idx : Nat)
  | output (module port : String)
  | noop (module : String)
  | dep (module dep : String)
  deriving DecidableEq

namespace NodeKey

def module : NodeKey → String
  | input m _ | op m _ | output m _ | noop m | dep m _ => m

def id : NodeKey → String
  | input m p => inputId m p
  | op m k => opId m k
  | output m p => outputId m p
  | noop m => noopId m
  | dep m d => depId m d

end NodeKey

abbrev Bindings : Type := String → Option NodeKey

-- What compiling a module decides on its own, whatever the other modules are.
structure Draft where
  locals : Bindings
  first : Option NodeKey
  tail : Option NodeKey
  outputs : List NodeKey

def bindWrite (key : NodeKey) (locals : Bindings) (out : String) : Bindings :=
  if out.isEmpty ∨ (locals out).isSome then locals else Function.update locals out (some key)

namespace Draft

def empty : Draft := ⟨fun _ => none, none, none, []⟩

variable (m : Module) (d : Draft)

def anchored (key : NodeKey) : Draft := { d with first := d.first.or (some key) }

def input (port : String) : Draft :=
  { d.anchored (.input m.name port) with
    locals := Function.update d.locals port (some (.input m.name port)) }

def op (entry : OpSpec × Nat) : Draft :=
  { d with
    locals := (remapSpec m.name entry.1).outputs.foldl (bindWrite (.op m.name entry.2)) d.locals
    tail := some (.op m.name entry.2) }

def output (port : String) : Draft :=
  match d.locals port with
  | some key => { d with outputs := d.outputs ++ [key] }
  | none =>
    { d.anchored (.output m.name port) with
      locals := Function.update d.locals port (some (.output m.name port))
      outputs := d.outputs ++ [.output m.name port]
      tail := some (.output m.name port) }

def noop : Draft :=
  match d.tail with
  | some _ => d
  | none => { d.anchored (.noop m.name) with tail := some (.noop m.name) }

def dep (name : String) : Draft := d.anchored (.dep m.name name)

end Draft

namespace Module

variable (m : Module)

def draftInputs : Draft := m.inputs.foldl (Draft.input m) .empty

def draftOps : Draft := m.ops.zipIdx.foldl (Draft.op m) m.draftInputs

def draftOutputs : Draft := m.outputs.foldl (Draft.output m) m.draftOps

def draft : Draft := m.draftOutputs.noop m

def tail : NodeKey := m.draft.tail.getD (.noop m.name)

end Module

namespace Draft

structure Holds (P : NodeKey → Prop) (d : Draft) : Prop where
  locals : ∀ c k, d.locals c = some k → P k
  first : ∀ k ∈ d.first, P k
  tail : ∀ k ∈ d.tail, P k
  outputs : ∀ k ∈ d.outputs, P k

abbrev Owned (m : Module) (d : Draft) : Prop := Holds (fun k => k.module = m.name) d

variable {m : Module} {d : Draft} {P : NodeKey → Prop}

theorem holds_empty : Holds P .empty := by
  constructor <;> simp [empty]

theorem Holds.anchored (h : Holds P d) {key : NodeKey} (hk : P key) :
    Holds P (d.anchored key) where
  locals := h.locals
  first := by
    intro k hf
    cases hd : d.first with
    | none =>
      obtain rfl : key = k := by simpa [Draft.anchored, hd] using hf
      exact hk
    | some k' =>
      obtain rfl : k' = k := by simpa [Draft.anchored, hd] using hf
      exact h.first k' hd
  tail := h.tail
  outputs := h.outputs

theorem update_holds {locals : Bindings} {col : String} {key : NodeKey}
    (h : ∀ c k, locals c = some k → P k) (hk : P key) :
    ∀ c k, Function.update locals col (some key) c = some k → P k := by
  intro c k hc
  by_cases he : c = col
  · subst he
    obtain rfl : key = k := by simpa using hc
    exact hk
  · exact h c k (by simpa [he] using hc)

theorem bindWrite_holds {locals : Bindings} {key : NodeKey} (hk : P key)
    (outs : List String) (h : ∀ c k, locals c = some k → P k) :
    ∀ c k, outs.foldl (bindWrite key) locals c = some k → P k := by
  induction outs generalizing locals with
  | nil => exact h
  | cons out outs ih =>
    refine ih ?_
    unfold bindWrite
    split_ifs
    · exact h
    · exact update_holds h hk

theorem Holds.input (h : Holds P d) {port : String} (hk : P (.input m.name port)) :
    Holds P (d.input m port) :=
  { h.anchored hk with locals := update_holds h.locals hk }

theorem Holds.op (h : Holds P d) {entry : OpSpec × Nat} (hk : P (.op m.name entry.2)) :
    Holds P (d.op m entry) where
  locals := bindWrite_holds hk _ h.locals
  first := h.first
  tail := by
    rintro k hm
    obtain rfl : NodeKey.op m.name entry.2 = k := by simpa [Draft.op] using hm
    exact hk
  outputs := h.outputs

theorem Holds.output (h : Holds P d) {port : String} (hk : P (.output m.name port)) :
    Holds P (d.output m port) := by
  unfold Draft.output
  split
  · rename_i key hl
    refine { h with outputs := ?_ }
    rintro k hm
    rcases List.mem_append.1 hm with hm | hm
    · exact h.outputs k hm
    · obtain rfl := List.mem_singleton.1 hm
      exact h.locals port k hl
  · refine { h.anchored hk with
      locals := update_holds h.locals hk, tail := ?_, outputs := ?_ }
    · rintro k hm
      obtain rfl : NodeKey.output m.name port = k := by simpa using hm
      exact hk
    · intro k hm
      rcases List.mem_append.1 hm with hm | hm
      · exact h.outputs k hm
      · obtain rfl := List.mem_singleton.1 hm
        exact hk

theorem Holds.noop (h : Holds P d) (hk : P (.noop m.name)) : Holds P (d.noop m) := by
  unfold Draft.noop
  split
  · exact h
  · refine { h.anchored hk with tail := ?_ }
    rintro k hm
    obtain rfl : NodeKey.noop m.name = k := by simpa using hm
    exact hk

theorem holds_draft (hin : ∀ p ∈ m.inputs, P (.input m.name p))
    (hop : ∀ e ∈ m.ops.zipIdx, P (.op m.name e.2)) (hout : ∀ p ∈ m.outputs, P (.output m.name p))
    (hnoop : P (.noop m.name)) : Holds P m.draft := by
  refine Holds.noop (foldl_rule_mem m.outputs ?_ fun d p hp h => h.output (hout p hp)) hnoop
  refine foldl_rule_mem m.ops.zipIdx ?_ fun d e he h => h.op (hop e he)
  exact foldl_rule_mem m.inputs holds_empty fun d p hp h => h.input (hin p hp)

theorem owned_draft (m : Module) : Owned m m.draft :=
  holds_draft (fun _ _ => rfl) (fun _ _ => rfl) (fun _ _ => rfl) rfl

def Extends (d d' : Draft) : Prop := ∀ c k, d.locals c = some k → d'.locals c = some k

theorem Extends.refl (d : Draft) : Extends d d := fun _ _ h => h

theorem Extends.trans {d₁ d₂ d₃ : Draft} (h : Extends d₁ d₂) (h' : Extends d₂ d₃) :
    Extends d₁ d₃ := fun c k hc => h' c k (h c k hc)

theorem bindWrite_extends {locals : Bindings} {key : NodeKey} (outs : List String) {c : String}
    {k : NodeKey} (h : locals c = some k) : outs.foldl (bindWrite key) locals c = some k := by
  refine foldl_rule (P := fun l : Bindings => l c = some k) outs h fun l out hl => ?_
  unfold bindWrite
  split_ifs with hc
  · exact hl
  · have hne : c ≠ out := by
      rintro rfl
      simp [hl] at hc
    rw [Function.update_of_ne hne, hl]

theorem extends_op (entry : OpSpec × Nat) : Extends d (d.op m entry) :=
  fun _ _ h => bindWrite_extends _ h

theorem extends_output (port : String) : Extends d (d.output m port) := by
  intro c k h
  unfold Draft.output
  split
  · exact h
  · rename_i hn
    have hne : c ≠ port := by
      rintro rfl
      simp [h] at hn
    simpa [hne] using h

theorem extends_foldl {α : Type} {f : Draft → α → Draft} (hf : ∀ d x, Extends d (f d x))
    (xs : List α) (d : Draft) : Extends d (xs.foldl f d) :=
  foldl_rule xs (Extends.refl d) fun d' x h => h.trans (hf d' x)

theorem noop_locals (m : Module) (d : Draft) : (d.noop m).locals = d.locals := by
  unfold Draft.noop
  split <;> rfl

theorem inputs_locals (m : Module) (ports : List String) (d : Draft) (c : String) :
    (ports.foldl (Draft.input m) d).locals c =
      if c ∈ ports then some (.input m.name c) else d.locals c := by
  induction ports generalizing d with
  | nil => simp
  | cons p ports ih =>
    rw [List.foldl_cons, ih]
    by_cases hc : c ∈ ports
    · simp [hc]
    · by_cases hp : c = p
      · subst hp
        simp [hc, Draft.input]
      · simp [hc, hp, Draft.input, Draft.anchored]

end Draft

namespace Module

variable (m : Module)

theorem draft_tail : m.draft.tail = some m.tail := by
  unfold tail draft Draft.noop
  split
  · rename_i k hk
    simp [hk]
  · simp

theorem draftInputs_locals (c : String) :
    m.draftInputs.locals c = if c ∈ m.inputs then some (.input m.name c) else none :=
  Draft.inputs_locals m m.inputs .empty c

end Module

structure OpOk (m : Module) (d : Draft) (entry : OpSpec × Nat) : Prop where
  constructible : ∃ op, createOp (remapSpec m.name entry.1) = .ok op
  fresh : ∀ pre out post, (remapSpec m.name entry.1).outputs = pre ++ out :: post →
    out.isEmpty = false → pre.foldl (bindWrite (.op m.name entry.2)) d.locals out = none

def Module.Ok (m : Module) : Prop :=
  ∀ pre entry post, m.ops.zipIdx = pre ++ entry :: post →
    OpOk m (pre.foldl (Draft.op m) m.draftInputs) entry

section

variable (ms : List Module)

def writer (col : String) : Option Module := ms.find? fun m => col ∈ m.written

def Foreign (m : Module) (col : String) : Prop := ∃ w ∈ writer ms col, w.name ≠ m.name

instance (m : Module) (col : String) : Decidable (Foreign ms m col) :=
  inferInstanceAs (Decidable (∃ w ∈ writer ms col, w.name ≠ m.name))

-- The node that ends up producing a column: its module's binding, unless that is an input port,
-- which CompileModule never registers.
def producer (col : String) : Option NodeKey :=
  match writer ms col with
  | some m => if col ∈ m.inputs then none else m.draft.locals col
  | none => none

def tailOf (name : String) : Option NodeKey := (ms.find? (·.name = name)).map (·.tail)

end

-- `regs` has the latest registration first.
structure Ledger where
  nodes : List NodeKey
  edges : List (NodeKey × NodeKey)
  regs : List (String × NodeKey)
  wanted : List String
  tails : List String
  done : List Module

namespace Ledger

def empty : Ledger := ⟨[], [], [], [], [], []⟩

def addNode (L : Ledger) (key : NodeKey) : Ledger := { L with nodes := L.nodes ++ [key] }

def addEdges (L : Ledger) (key : NodeKey) (targets : List NodeKey) : Ledger :=
  { L with edges := L.edges ++ targets.map fun t => (key, t) }

def register (L : Ledger) (col : String) (key : NodeKey) : Ledger :=
  { L with regs := (col, key) :: L.regs }

def Wants (ms : List Module) (m : Module) (locals : Bindings) (col : String) : Prop :=
  locals col = none ∧ isLocalName col = false ∧ Foreign ms m col

instance (ms : List Module) (m : Module) (locals : Bindings) (col : String) :
    Decidable (Wants ms m locals col) :=
  inferInstanceAs (Decidable (_ ∧ _ ∧ _))

def resolve (ms : List Module) (m : Module) (locals : Bindings) (L : Ledger) (col : String) :
    Option NodeKey :=
  match locals col with
  | some key => some key
  | none =>
    if isLocalName col then L.regs.lookup col
    else if Foreign ms m col then producer ms col else none

def read (ms : List Module) (m : Module) (key : NodeKey) (locals : Bindings) (L : Ledger)
    (col : String) : Ledger :=
  { L with
    edges := L.edges ++ (L.resolve ms m locals col).toList.map fun t => (key, t)
    wanted := if Wants ms m locals col then col :: L.wanted else L.wanted }

def write (key : NodeKey) (w : Ledger × Bindings) (out : String) : Ledger × Bindings :=
  (if out.isEmpty ∨ (w.2 out).isSome then w.1 else w.1.register out key, bindWrite key w.2 out)

def targets (ms : List Module) (L : Ledger) (name : String) : List NodeKey :=
  match L.done.find? (·.name = name) with
  | some m => if m.draft.outputs ≠ [] then m.draft.outputs else [m.tail]
  | none => (tailOf ms name).toList

variable (ms : List Module) (m : Module)

def planInput (w : Ledger × Draft) (port : String) : Ledger × Draft :=
  ((w.1.addNode (.input m.name port)).read ms m (.input m.name port) w.2.locals port,
    w.2.input m port)

def planOp (w : Ledger × Draft) (entry : OpSpec × Nat) : Ledger × Draft :=
  let spec := remapSpec m.name entry.1
  let key := NodeKey.op m.name entry.2
  let L := spec.inputs.foldl (read ms m key w.2.locals) (w.1.addNode key)
  ((spec.outputs.foldl (write key) (L, w.2.locals)).1, w.2.op m entry)

def planOutput (w : Ledger × Draft) (port : String) : Ledger × Draft :=
  match w.2.locals port with
  | some _ => (w.1, w.2.output m port)
  | none =>
    let key := NodeKey.output m.name port
    (((w.1.addNode key).read ms m key w.2.locals port).register port key, w.2.output m port)

def planNoop (w : Ledger × Draft) : Ledger × Draft :=
  match w.2.tail with
  | some _ => (w.1, w.2.noop m)
  | none => (w.1.addNode (.noop m.name), w.2.noop m)

def planDep (w : Ledger × Draft) (name : String) : Ledger × Draft :=
  let key := NodeKey.dep m.name name
  let d := w.2.dep m name
  let L := (w.1.addNode key).addEdges key (w.1.targets ms name)
  let L := { L with tails := name :: L.tails }
  (if (d.first.getD key).id = key.id then L else L.addEdges (d.first.getD key) [key], d)

variable (L : Ledger)

def afterInputs : Ledger × Draft := m.inputs.foldl (planInput ms m) (L, .empty)

def afterOps : Ledger × Draft := m.ops.zipIdx.foldl (planOp ms m) (L.afterInputs ms m)

def afterOutputs : Ledger × Draft := m.outputs.foldl (planOutput ms m) (L.afterOps ms m)

def afterNoop : Ledger × Draft := planNoop m (L.afterOutputs ms m)

def afterDeps : Ledger × Draft := m.dependencies.foldl (planDep ms m) (L.afterNoop ms m)

def planModule : Ledger := { (L.afterDeps ms m).1 with done := L.done ++ [m] }

end Ledger

def ledger (ms : List Module) : Ledger := ms.foldl (fun L m => L.planModule ms m) .empty

end Lark.Column.Biz
