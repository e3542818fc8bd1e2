import Lark.Column.Biz.Roster

namespace Lark.Column.Biz

open Lark.Base Lark.Column.Exec CompileM

def NodeKey.IsAnchor (k : NodeKey) : Prop := ∀ m i, k ≠ .op m i

inductive Entry (ms : List Module) : NodeKey → NodeOp → Prop
  | anchor {k : NodeKey} {col : String} (hk : IsKey ms k) (ha : k.IsAnchor) :
    Entry ms k (.op ⟨"identity", [col], [col], .identity⟩)
  | op {m : Module} {i : Nat} {spec : OpSpec} {o : Op} (hm : m ∈ ms) (hs : m.ops[i]? = some spec)
    (ho : createOp (remapSpec m.name spec) = .ok o) : Entry ms (.op m.name i) (.op o)

def Keyed (ms : List Module) (g : ComputeGraph) : Prop :=
  ∀ n ∈ g.nodes, ∀ o, n.op = .op o → ∃ k, Entry ms k (.op o) ∧ n.id = k.id

section Graph

variable {ms : List Module} {g g' : ComputeGraph}

theorem Keyed.addNode (h : Keyed ms g) {k : NodeKey} {op : NodeOp} (he : Entry ms k op) :
    Keyed ms (g.addNode k.id k.module op) := by
  intro n hn o ho
  rcases List.mem_append.1 hn with hn | hn
  · exact h n hn o ho
  · obtain rfl := List.mem_singleton.1 hn
    exact ⟨k, ho ▸ he, rfl⟩

theorem Keyed.addPlaceholder (h : Keyed ms g) (output id : String) :
    Keyed ms (g.addPlaceholder output id) := by
  intro n hn o ho
  rcases List.mem_append.1 hn with hn | hn
  · exact h n hn o ho
  · obtain rfl := List.mem_singleton.1 hn
    cases ho

theorem Keyed.addDependency (h : Keyed ms g) {a b : String} (hd : g.addDependency a b = .ok g') :
    Keyed ms g' := by
  obtain ⟨node, dep, -, -, rfl⟩ := ComputeGraph.addDependency_inv hd
  intro n hn o ho
  obtain ⟨m, hm, -, hid, -, hop⟩ := ComputeGraph.mem_of_core
    (ComputeGraph.map_wire_core g.nodes).symm hn
  rw [← hid]
  exact h m hm o (hop.trans ho)

theorem Keyed.replacePlaceholder (h : Keyed ms g) {a b : String}
    (hr : g.replacePlaceholder a b = .ok g') : Keyed ms g' := by
  obtain ⟨placeholder, real, -, -, ⟨-, rfl⟩ | ⟨-, rfl⟩⟩ := ComputeGraph.replacePlaceholder_inv hr
  · exact h
  · intro n hn o ho
    obtain ⟨m, hm, -, rfl⟩ := ComputeGraph.mem_rewired.1 hn
    exact h m hm o ho

end Graph

section Keeps

variable {ms : List Module} {m : Module}

theorem keyed_addNode {k : NodeKey} {op : NodeOp} (he : Entry ms k op) :
    Keeps (OnGraph (Keyed ms)) (addNode k.id k.module op) :=
  .modify fun _ h => h.addNode he

theorem keyed_addPlaceholder (output id : String) :
    Keeps (OnGraph (Keyed ms)) (addPlaceholder output id) :=
  .modify fun _ h => h.addPlaceholder output id

theorem keyed_replacePlaceholder (id real : String) :
    Keeps (OnGraph (Keyed ms)) (replacePlaceholder id real) :=
  keeps_onGraph fun _ _ h hr => h.replacePlaceholder hr

theorem keyed_steps (ms : List Module) : WiringSteps (OnGraph (Keyed ms)) where
  dependency id dep := keeps_onGraph fun _ _ h hd => h.addDependency hd
  column col := by
    refine .bind .get fun c => ?_
    split
    · exact .pure _
    · exact .bind (keyed_addPlaceholder _ _) fun _ => .bind (keeps_same fun _ => rfl) fun _ => .pure _
  producer col nodeId name := by
    refine .bind (keeps_same fun _ => rfl) fun _ => .bind .get fun c => ?_
    split
    · exact .bind (keyed_replacePlaceholder _ _) fun _ => keeps_same fun _ => rfl
    · exact .pure _
  tail dep := by
    refine .bind .get fun c => ?_
    split
    · exact .pure _
    · exact .bind (keeps_same fun _ => rfl) fun _ => .bind (keyed_addPlaceholder _ _) fun _ => .pure _

theorem keyed_addAnchor {k : NodeKey} (hk : IsKey ms k) (ha : k.IsAnchor) (hm : k.module = m.name)
    (col : String) (fr : Frame) : Keeps (OnGraph (Keyed ms)) (addAnchor m k.id col fr) := by
  refine keeps_orThrow_bind fun o ho => ?_
  obtain rfl := Except.ok.inj ho
  rw [← hm]
  exact .bind (keyed_addNode (.anchor hk ha)) fun _ => .pure _

theorem keyed_compileInput (hm : m ∈ ms) {port : String} (hp : port ∈ m.inputs) (fr : Frame) :
    Keeps (OnGraph (Keyed ms)) (compileInput m fr port) := by
  have hkey : IsKey ms (.input m.name port) := ⟨m, hm, rfl, hp⟩
  apply Keeps.bind (keyed_addAnchor hkey (fun _ _ h => by cases h) rfl _ _)
  intro fr'
  exact .bind (keeps_wireInput (keyed_steps ms) _ _ _ _) fun _ => .pure _

theorem keyed_compileOp (hm : m ∈ ms) {entry : OpSpec × Nat} (hs : entry ∈ m.ops.zipIdx)
    (fr : Frame) : Keeps (OnGraph (Keyed ms)) (compileOp m fr entry) := by
  refine keeps_orThrow_bind fun o ho => ?_
  have hat : m.ops[entry.2]? = some entry.1 := List.mem_zipIdx_iff_getElem?.1 hs
  apply Keeps.bind (keyed_addNode (k := .op m.name entry.2) (.op hm hat ho))
  intro _
  apply Keeps.bind (.forM fun _ _ => keeps_wireInput (keyed_steps ms) _ _ _ _)
  intro _
  apply Keeps.bind (.foldlM (fun _ _ _ => keeps_compileWrite (keyed_steps ms) _ _ _ _) _)
  intro _
  exact .pure _

theorem keyed_compileOutput (hm : m ∈ ms) {port : String} (hp : port ∈ m.outputs) (fr : Frame) :
    Keeps (OnGraph (Keyed ms)) (compileOutput m fr port) := by
  have hkey : IsKey ms (.output m.name port) := ⟨m, hm, rfl, hp⟩
  unfold compileOutput
  split
  · exact .pure _
  · apply Keeps.bind (keyed_addAnchor hkey (fun _ _ h => by cases h) rfl _ _)
    intro fr'
    apply Keeps.bind (keeps_wireInput (keyed_steps ms) _ _ _ _)
    intro _
    exact .bind ((keyed_steps ms).producer _ _ _) fun _ => .pure _

theorem keyed_compileNoop (hm : m ∈ ms) (fr : Frame) :
    Keeps (OnGraph (Keyed ms)) (compileNoop m fr) := by
  have hkey : IsKey ms (.noop m.name) := ⟨m, hm, rfl⟩
  unfold compileNoop
  split_ifs
  · exact .bind (keyed_addAnchor hkey (fun _ _ h => by cases h) rfl _ _) fun _ => .pure _
  · exact .pure _

theorem keyed_compileDep (hm : m ∈ ms) {dep : String} (hd : dep ∈ m.dependencies) (fr : Frame) :
    Keeps (OnGraph (Keyed ms)) (compileDep m fr dep) := by
  have hkey : IsKey ms (.dep m.name dep) := ⟨m, hm, rfl, hd⟩
  apply Keeps.bind (keyed_addAnchor hkey (fun _ _ h => by cases h) rfl _ _)
  intro fr'
  apply Keeps.bind (keeps_wireDep (keyed_steps ms) _ _)
  intro _
  exact .bind (keeps_wireFirst (keyed_steps ms) _ _) fun _ => .pure _

theorem keyed_replaceTail (m : Module) (fr : Frame) :
    Keeps (OnGraph (Keyed ms)) (replaceTail m fr) := by
  refine .bind .get fun c => ?_
  split
  · split_ifs
    · exact .pure _
    · exact .bind (keyed_replacePlaceholder _ _) fun _ => keeps_same fun _ => rfl
  · exact .pure _

theorem keyed_compileModule (hm : m ∈ ms) : Keeps (OnGraph (Keyed ms)) (compileModule m) := by
  apply Keeps.bind (.foldlM (fun _ _ hp => keyed_compileInput hm hp _) _)
  intro _
  apply Keeps.bind (.foldlM (fun _ _ hs => keyed_compileOp hm hs _) _)
  intro _
  apply Keeps.bind (.foldlM (fun _ _ hp => keyed_compileOutput hm hp _) _)
  intro _
  apply Keeps.bind (keyed_compileNoop hm _)
  intro _
  apply Keeps.bind (.foldlM (fun _ _ hd => keyed_compileDep hm hd _) _)
  intro _
  exact .bind (keyed_replaceTail _ _) fun _ => keeps_same fun _ => rfl

theorem keyed_compile (ms : List Module) (names : List String) :
    Keeps (OnGraph (Keyed ms)) (compile ms names) := by
  refine .bind (keeps_same fun _ => rfl) fun _ => ?_
  apply Keeps.bind (.forM fun m _ => .forM fun col _ => keeps_collectColumn m col)
  intro _
  apply Keeps.bind (keeps_checkDependencies _ _)
  intro _
  apply Keeps.bind (.forM fun _ hm => keyed_compileModule hm)
  intro _
  refine .bind .get fun c => ?_
  split_ifs
  · exact .throw _
  · exact .pure _

end Keeps

section Build

variable {ms : List Module} {m : Module} {g : ComputeGraph}

theorem build_keyed (h : build ms = .ok g) : Keyed ms g := by
  obtain ⟨s, topo, flag, hs, rfl⟩ := build_inv h
  have hkeyed := keyed_compile ms (ms.map (·.name)) (.start .empty) fun n hn => by cases hn
  rw [← compileAll, hs] at hkeyed
  exact hkeyed

theorem Entry.isKey {k : NodeKey} {op : NodeOp} (h : Entry ms k op) : IsKey ms k := by
  cases h with
  | anchor hk _ => exact hk
  | @op m i spec o hm hs _ => exact ⟨m, hm, rfl, (List.getElem?_eq_some_iff.1 hs).1⟩

theorem build_opNode (hb : build ms = .ok g) (hc : Compilable ms) (hd : IdsDistinct ms)
    (hreal : ∀ n ∈ g.nodes, n.op.isPlaceholder = false) (hm : m ∈ ms) {i : Nat} {spec : OpSpec}
    (hs : m.ops[i]? = some spec) :
    ∃ n ∈ g.nodes, ∃ o, n.op = .op o ∧ createOp (remapSpec m.name spec) = .ok o := by
  have hlt := (List.getElem?_eq_some_iff.1 hs).1
  have hkey : NodeKey.op m.name i ∈ ms.flatMap Module.keys := by
    refine List.mem_flatMap.2 ⟨m, hm, ?_⟩
    simp only [Module.keys, List.mem_append, List.mem_map, List.mem_range]
    exact .inl (.inl (.inl (.inr ⟨i, hlt, rfl⟩)))
  have hid : (NodeKey.op m.name i).id ∈ g.nodes.map (·.id) := by
    rw [build_ids hb]
    exact List.mem_map_of_mem hkey
  obtain ⟨n, hn, hnid⟩ := List.mem_map.1 hid
  cases hop : n.op with
  | placeholder out =>
    have hplain := hreal n hn
    simp [hop, NodeOp.isPlaceholder] at hplain
  | op o =>
    obtain ⟨k, hentry, hk⟩ := build_keyed hb n hn o hop
    have hsame : k = .op m.name i :=
      hd k (.op m.name i) hentry.isKey ⟨m, hm, rfl, hlt⟩ (hk.symm.trans hnid)
    generalize hop' : NodeOp.op o = op at hentry
    cases hentry with
    | anchor _ ha => exact absurd hsame (ha _ _)
    | @op m' i' spec' o' hm' hs' ho =>
      obtain rfl := NodeOp.op.inj hop'
      obtain ⟨hname, rfl⟩ := NodeKey.op.inj hsame
      obtain rfl := hc.module_eq hm' hm hname
      obtain rfl : spec' = spec := Option.some.inj (hs'.symm.trans hs)
      exact ⟨n, hn, o, hop, ho⟩

end Build

end Lark.Column.Biz
