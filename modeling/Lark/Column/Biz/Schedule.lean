import Lark.Column.Biz.DataFlow
import Lark.Column.Exec.Execution

namespace Lark.Column.Biz

open Lark.Base Lark.Column.Exec Relation

variable {ms : List Module} {g : ComputeGraph}

def OpAt (ms : List Module) (key : NodeKey) (o : Op) : Prop :=
  ∃ m ∈ ms, ∃ k spec, key = .op m.name k ∧ m.ops[k]? = some spec ∧
    createOp (remapSpec m.name spec) = .ok o

def ConflictsOrdered (ms : List Module) : Prop :=
  ∀ a o b o', OpAt ms a o → OpAt ms b o' → a ≠ b → (NodeOp.op o).Conflict (.op o') →
    TransGen (Flow ms) a b ∨ TransGen (Flow ms) b a

theorem not_conflict_anchor {o : Op} (h : o.isAnchor = true) (op : NodeOp) :
    ¬ (NodeOp.op o).Conflict op := by
  rintro (⟨c, hc, -⟩ | ⟨c, -, hc⟩)
  · simp [NodeOp.writes, h] at hc
  · simp [NodeOp.reads, h] at hc

theorem not_conflict_placeholder (out : String) (op : NodeOp) :
    ¬ (NodeOp.placeholder out).Conflict op := by
  rintro (⟨c, hc, -⟩ | ⟨c, -, hc⟩)
  · cases hc
  · cases hc

theorem Compiled.opAt (h : Compiled ms g) (hd : IdsDistinct ms) {n : ComputeNode}
    (hn : n ∈ g.nodes) {op : NodeOp} (hc : n.op.Conflict op) :
    ∃ key o, OpAt ms key o ∧ n.op = .op o ∧ g.byId key.id = some n.ptr := by
  cases ho : n.op with
  | placeholder out =>
    rw [ho] at hc
    exact absurd hc (not_conflict_placeholder out op)
  | op o =>
    rw [ho] at hc
    rcases h.kinds n hn o ho with ⟨ha, -⟩ | ⟨m, hm, spec, k, hspec, hid, -, hop⟩
    · exact absurd hc (not_conflict_anchor ha op)
    · have hkey : IsKey ms (.op m.name k) := ⟨m, hm, rfl, (List.getElem?_eq_some_iff.1 hspec).1⟩
      have hby := h.unique hd n hn m.name k hkey hid
      rw [hid] at hby
      exact ⟨.op m.name k, o, ⟨m, hm, k, spec, rfl, hspec, hop⟩, rfl, hby⟩

theorem raceFree_of_conflictsOrdered (hc : Compilable ms) (h : Compiled ms g)
    (hd : IdsDistinct ms) (ho : ConflictsOrdered ms) : RaceFree g := by
  intro n hn m hm hp hconf
  obtain ⟨a, o, ha, hop, hbyA⟩ := h.opAt hd hn hconf
  obtain ⟨b, o', hb, hop', hbyB⟩ := h.opAt hd hm hconf.symm
  have hne : a ≠ b := by
    rintro rfl
    exact hp (Option.some.inj (hbyA.symm.trans hbyB))
  rw [hop, hop'] at hconf
  rcases ho a o b o' ha hb hne hconf with hflow | hflow
  · exact .inr (h.node_path (flows_path hc hflow) hbyB hbyA)
  · exact .inl (h.node_path (flows_path hc hflow) hbyA hbyB)

def unusedLibm : Libm := ⟨fun x => x, fun x => x, fun x => x⟩

def fedX : TensorStore := TensorStore.empty.set "x" (.scalar .float64 [1])

def relayed : Module :=
  ⟨"m", ["x"], ["z"], [], [⟨"identity", ["x"], ["y"], []⟩, ⟨"identity", ["y"], ["z"], []⟩]⟩

def relayedKeys : List NodeKey :=
  [.input "m" "x", .op "m" 0, .op "m" 1, .output "m" "z", .noop "m"]

theorem relayed_ids : IdsDistinct [relayed] := by
  have hkeys : ∀ k, IsKey [relayed] k → k ∈ relayedKeys := by
    intro k hk
    cases k with
    | op m i =>
      obtain ⟨M, hM, rfl, hi⟩ := hk
      obtain rfl := List.mem_singleton.1 hM
      have hi' : i < 2 := hi
      interval_cases i <;> decide
    | _ => simp_all [IsKey, relayed, relayedKeys]
  have hinj : ∀ k ∈ relayedKeys, ∀ k' ∈ relayedKeys, k.id = k'.id → k = k' := by decide
  exact fun k k' hk hk' => hinj k (hkeys k hk) k' (hkeys k' hk')

theorem relayed_flow : Flow [relayed] (.op "m" 0) (.op "m" 1) :=
  @Flow.within _ relayed 0 1 _ _ "y" (by simp) rfl rfl (by decide) (by decide) (by decide)
    (by decide)

theorem relayed_ordered : ConflictsOrdered [relayed] := by
  have hat : ∀ a o, OpAt [relayed] a o → a = .op "m" 0 ∨ a = .op "m" 1 := by
    rintro a o ⟨M, hM, k, spec, rfl, hk, -⟩
    obtain rfl := List.mem_singleton.1 hM
    have hlt : k < 2 := (List.getElem?_eq_some_iff.1 hk).1
    interval_cases k
    · exact .inl rfl
    · exact .inr rfl
  intro a o b o' ha hb hne _
  rcases hat a o ha with rfl | rfl <;> rcases hat b o' hb with rfl | rfl
  · exact absurd rfl hne
  · exact .inl (.single relayed_flow)
  · exact .inr (.single relayed_flow)
  · exact absurd rfl hne

def readsLater : Module :=
  ⟨"m", ["x"], ["a"], [], [⟨"identity", ["b"], ["a"], []⟩, ⟨"identity", ["x"], ["b"], []⟩]⟩

theorem built_readsLater : ∃ g, build [readsLater] = .ok g ∧ g.nodes =
    [⟨0, "m/@in:x", "m", .op ⟨"identity", ["x"], ["x"], .identity⟩, []⟩,
      ⟨1, "m/op0", "m", .op ⟨"identity", ["b"], ["a"], .identity⟩, []⟩,
      ⟨2, "m/op1", "m", .op ⟨"identity", ["x"], ["b"], .identity⟩, [0]⟩] :=
  ⟨_, rfl, rfl⟩

end Lark.Column.Biz
