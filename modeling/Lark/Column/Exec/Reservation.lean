import Lark.Column.Exec.Execution

namespace Lark.Column.Exec

open Lark.Base Relation

structure SameNames (store store' : TensorStore) : Prop where
  find : ∀ c, (store'.find c).isSome = (store.find c).isSome
  order : store'.order = store.order

namespace SameNames

variable {store store' store'' : TensorStore}

theorem refl (store : TensorStore) : SameNames store store := ⟨fun _ => rfl, rfl⟩

theorem trans (h : SameNames store store') (h' : SameNames store' store'') :
    SameNames store store'' :=
  ⟨fun c => (h'.find c).trans (h.find c), h'.order.trans h.order⟩

theorem set {c : String} (h : (store.find c).isSome) (t : Tensor) :
    SameNames store (store.set c t) := by
  refine ⟨?_, by simp [TensorStore.set, h]⟩
  intro d
  rcases eq_or_ne d c with rfl | hne
  · simp [h]
  · simp [hne]

end SameNames

section

variable {libm : Libm} {g : ComputeGraph} {store : TensorStore} {s t : ExecState}

def Registered (g : ComputeGraph) (store : TensorStore) : Prop :=
  ∀ n ∈ g.nodes, ∀ c ∈ n.op.writes, (store.find c).isSome

def NoEmptyInsert (g : ComputeGraph) (store : TensorStore) : Prop :=
  ∀ n ∈ g.nodes, n.op.writes = some "" → (store.find "").isSome

theorem registered_start (h : NoEmptyInsert g store) :
    Registered g (g.reserveOutputs store) := by
  intro n hn c hc
  have hlisted : ∃ n ∈ g.nodes, c ∈ n.op.outputs := ⟨n, hn, mem_outputs_of_writes hc⟩
  rw [find_reserveOutputs]
  rcases eq_or_ne c "" with rfl | hne
  · simp [h n hn hc]
  · rw [if_pos ⟨hne, hlisted⟩]
    cases store.find c <;> rfl

theorem write_registered (h : Registered g s.store) {n : ComputeNode} (hn : n ∈ g.nodes)
    {c : String} {x : Tensor} (hw : (s.next libm n).2 = some (c, x)) : (s.store.find c).isSome :=
  h n hn c (effect_writes hw).1

theorem sameNames_step (h : Registered g s.store) (hst : Step libm g s t) :
    SameNames s.store t.store := by
  cases hst with
  | node n hn he =>
    change SameNames s.store (applyWrite s.store (s.next libm n).2)
    cases hw : (s.next libm n).2 with
    | none => exact .refl _
    | some w => exact .set (write_registered h hn hw) w.2

theorem registered_sameNames {store' : TensorStore} (h : Registered g store)
    (hs : SameNames store store') : Registered g store' := by
  intro n hn c hc
  rw [hs.find]
  exact h n hn c hc

theorem sameNames_run (h : Registered g s.store) (hrun : ReflTransGen (Step libm g) s t) :
    SameNames s.store t.store := by
  induction hrun with
  | refl => exact .refl _
  | tail _ hst ih => exact ih.trans (sameNames_step (registered_sameNames h ih) hst)

theorem run_never_inserts (h : NoEmptyInsert g store)
    (hrun : ReflTransGen (Step libm g) (startState g store) s) :
    SameNames (g.reserveOutputs store) s.store ∧
      ∀ n ∈ g.nodes, ∀ c x, (s.next libm n).2 = some (c, x) → (s.store.find c).isSome := by
  have hreg := registered_start h
  have hsame : SameNames (g.reserveOutputs store) s.store := sameNames_run hreg hrun
  refine ⟨hsame, ?_⟩
  intro n hn c x hw
  exact write_registered (registered_sameNames hreg hsame) hn hw

end

section

variable (out : String)

def constOne : Op := ⟨"const", [], [out], .const "1" "float64" "1"⟩

def constNode : ComputeNode := ⟨0, "n", "m", .op (constOne out), []⟩

def constGraph : ComputeGraph := ComputeGraph.empty.addNode "n" "m" (.op (constOne out))

def constLibm : Libm := ⟨id, id, id⟩

theorem runKernel_constOne (input : Nat → Except Exn Tensor) :
    runKernel constLibm (.const "1" "float64" "1") input = .ok (.scalar .float64 [.num 1]) := by
  have hdtype : parseDtype "float64" = .ok .float64 := rfl
  have hsize : stoull "1" = .ok 1 := by decide +kernel
  have hconst : buildConst "1" .float64 1 = .ok (.scalar .float64 [.num 1]) := by decide +kernel
  simp only [runKernel, hdtype, hsize, except_ok_bind, hconst]

theorem constGraph_run :
    ∃ s, ReflTransGen (Step constLibm (constGraph out)) (startState (constGraph out) .empty) s ∧
      s.store = ((constGraph out).reserveOutputs .empty).set out (.scalar .float64 [.num 1]) := by
  have hn : constNode out ∈ (constGraph out).nodes := by
    simp [constGraph, constNode, ComputeGraph.addNode, ComputeGraph.empty]
  have hcompute (store : TensorStore) :
      (constOne out).compute constLibm store =
        .ok (store.set out (.scalar .float64 [.num 1])) := by
    have hanchor : (constOne out).isAnchor = false := rfl
    rw [Op.compute, if_neg (by simp [hanchor]), constOne, runKernel_constOne]
    rfl
  refine ⟨_, runNode_steps hn (by simp [constNode]) (by simp [constNode]) rfl, ?_⟩
  simp [runNode, constNode, hcompute, startState]

theorem run_never_inserts_named :
    NoEmptyInsert (constGraph "x") .empty ∧
      ∃ s, ReflTransGen (Step constLibm (constGraph "x")) (startState (constGraph "x") .empty) s ∧
        SameNames ((constGraph "x").reserveOutputs .empty) s.store := by
  have hnamed : NoEmptyInsert (constGraph "x") .empty := by
    intro n hn hw
    obtain rfl : n = constNode "x" := by
      simpa [constGraph, constNode, ComputeGraph.addNode, ComputeGraph.empty] using hn
    exact absurd hw (by decide)
  obtain ⟨s, hrun, -⟩ := constGraph_run "x"
  exact ⟨hnamed, s, hrun, (run_never_inserts hnamed hrun).1⟩

theorem run_inserts_empty_name :
    createOp ⟨"const", [], [""], [("value", "1")]⟩ = .ok (constOne "") ∧
      ∃ s, ReflTransGen (Step constLibm (constGraph "")) (startState (constGraph "") .empty) s ∧
        ¬ SameNames ((constGraph "").reserveOutputs .empty) s.store := by
  obtain ⟨s, hrun, hstore⟩ := constGraph_run ""
  refine ⟨rfl, s, hrun, ?_⟩
  intro h
  have hfind := h.find ""
  have habsent : ((constGraph "").reserveOutputs .empty).find "" = none := by
    rw [find_reserveOutputs]
    rfl
  rw [hstore, TensorStore.set_find_self, habsent] at hfind
  simp at hfind

end

end Lark.Column.Exec
