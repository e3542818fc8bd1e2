import Lark.Base.Memo
import Lark.Column.Biz.Appends
import Lark.Column.Biz.ModuleOrder
import Lark.Column.Biz.PartialGraph
import Lark.Column.Exec.Execution

namespace Lark.Column.Biz

open Lark.Base Lark.Column.Exec

-- The renaming as CompileModule does it, with the table of one module.
namespace RenameTable

abbrev RenameM : Type → Type := StateM (String → Option String)

def remapTemp (module col : String) : RenameM String :=
  Memo.consult (fun col => Biz.remapTemp col module) col

def remap (module col : String) : RenameM String :=
  if startsWithAt col then remapTemp module col else pure col

def remapSpec (module : String) (spec : OpSpec) : RenameM OpSpec := do
  let inputs ← spec.inputs.mapM (remap module)
  let outputs ← spec.outputs.mapM (remap module)
  pure { spec with inputs := inputs, outputs := outputs }

def remapOps (m : Module) : List OpSpec :=
  ((m.ops.mapM (remapSpec m.name)).run fun _ => none).1

abbrev Remaps {α : Type} (module : String) (x : RenameM α) (a : α) : Prop :=
  Memo.Answers (fun col => Biz.remapTemp col module) x a

theorem remaps_remap (module col : String) :
    Remaps module (remap module col) (Biz.remap module col) := by
  unfold remap Biz.remap
  split_ifs
  · exact Memo.answers_consult col
  · exact Memo.answers_pure col

theorem remaps_remapSpec (module : String) (spec : OpSpec) :
    Remaps module (remapSpec module spec) (Biz.remapSpec module spec) := by
  have hcols (cols : List String) :
      Remaps module (cols.mapM (remap module)) (cols.map (Biz.remap module)) :=
    .mapM fun col _ => remaps_remap module col
  exact (hcols spec.inputs).bind ((hcols spec.outputs).bind (Memo.answers_pure _))

theorem remapOps_eq (m : Module) : remapOps m = m.ops.map (Biz.remapSpec m.name) :=
  (Memo.Answers.mapM (fun spec _ => remaps_remapSpec m.name spec) _ Memo.sound_empty).1

end RenameTable

section Names

theorem append_slash_eq_iff (x y u v : List Char) : x ++ '/' :: u = y ++ '/' :: v ↔
    x = y ∧ u = v ∨ (∃ r, y = x ++ '/' :: r ∧ u = r ++ '/' :: v) ∨
      ∃ r, x = y ++ '/' :: r ∧ v = r ++ '/' :: u := by
  constructor
  · intro h
    rcases List.append_eq_append_iff.1 h with ⟨mid, rfl, hm⟩ | ⟨mid, rfl, hm⟩
    · cases mid with
      | nil => exact .inl (by simpa using hm)
      | cons c mid =>
        obtain ⟨rfl, rfl⟩ := List.cons.inj hm
        exact .inr (.inl ⟨mid, rfl, rfl⟩)
    · cases mid with
      | nil => exact .inl (by simpa [eq_comm] using hm)
      | cons c mid =>
        obtain ⟨rfl, rfl⟩ := List.cons.inj hm
        exact .inr (.inr ⟨mid, rfl, rfl⟩)
  · rintro (⟨rfl, rfl⟩ | ⟨r, rfl, rfl⟩ | ⟨r, rfl, rfl⟩)
    · rfl
    · simp
    · simp

theorem remapTemp_toList (c name : String) :
    (remapTemp c name).toList = '@' :: (name.toList ++ '/' :: c.toList.drop 1) := by
  simp [remapTemp, String.toList_append]

theorem startsWithAt_at (t : String) : startsWithAt ("@" ++ t) = true := by
  simp [startsWithAt, String.toList_append]

theorem eq_at_iff {c : String} (hc : startsWithAt c = true) (t : String) :
    c = "@" ++ t ↔ c.toList.drop 1 = t.toList := by
  rw [← String.toList_inj, String.toList_append, toList_of_at hc]
  simp

theorem continues_iff {c d : String} (hc : startsWithAt c = true) (hd : startsWithAt d = true)
    (a b : String) :
    (∃ r, b.toList = a.toList ++ '/' :: r ∧ c.toList.drop 1 = r ++ '/' :: d.toList.drop 1) ↔
      ∃ r s, b = a ++ "/" ++ r ∧ c = "@" ++ (r ++ "/" ++ s) ∧ d = "@" ++ s := by
  constructor
  · rintro ⟨r, hb, hcd⟩
    refine ⟨String.ofList r, String.ofList (d.toList.drop 1), ?_, (eq_at_iff hc _).2 ?_,
      (eq_at_iff hd _).2 ?_⟩
    · rw [← String.toList_inj, hb]
      simp [String.toList_append]
    · rw [hcd]
      simp [String.toList_append]
    · rw [String.toList_ofList]
  · rintro ⟨r, s, rfl, hcd, hds⟩
    refine ⟨r.toList, by simp [String.toList_append], ?_⟩
    rw [(eq_at_iff hc _).1 hcd, (eq_at_iff hd _).1 hds]
    simp [String.toList_append]

theorem remapTemp_eq_iff {c d : String} (hc : startsWithAt c = true) (hd : startsWithAt d = true)
    (a b : String) : remapTemp c a = remapTemp d b ↔ a = b ∧ c = d ∨
      (∃ r s, b = a ++ "/" ++ r ∧ c = "@" ++ (r ++ "/" ++ s) ∧ d = "@" ++ s) ∨
        ∃ r s, a = b ++ "/" ++ r ∧ d = "@" ++ (r ++ "/" ++ s) ∧ c = "@" ++ s := by
  have hsame : a.toList = b.toList ∧ c.toList.drop 1 = d.toList.drop 1 ↔ a = b ∧ c = d := by
    rw [String.toList_inj, ← @String.toList_inj c d, toList_of_at hc, toList_of_at hd]
    simp
  rw [← String.toList_inj, remapTemp_toList, remapTemp_toList, List.cons_inj_right,
    append_slash_eq_iff, hsame, continues_iff hc hd, continues_iff hd hc]

end Names

section Alias

def Module.columns (m : Module) : List String :=
  m.ops.flatMap fun spec => spec.inputs ++ spec.outputs

def Module.IsTemp (m : Module) (c : String) : Prop := c ∈ m.columns ∧ startsWithAt c = true

structure NeverAlias (ms : List Module) : Prop where
  renamed : ∀ m ∈ ms, ∀ m' ∈ ms, ∀ c c', m.IsTemp c → m'.IsTemp c' →
    (remap m.name c = remap m'.name c' ↔ m.name = m'.name ∧ c = c')
  nonTemp : ∀ m ∈ ms, ∀ c, m.IsTemp c → ∀ d, startsWithAt d = false → remap m.name c ≠ d
  isolated : ∀ m ∈ ms, ∀ c, m.IsTemp c → ∀ n ∈ (finalState (compileAll ms)).graph.nodes,
    n.module ≠ m.name → remap m.name c ∉ n.op.reads ∧ n.op.writes ≠ some (remap m.name c)

def Collide (a b : Module) : Prop :=
  ∃ r s, b.name = a.name ++ "/" ++ r ∧ "@" ++ (r ++ "/" ++ s) ∈ a.columns ∧ "@" ++ s ∈ b.columns

def OwnOps (ms : List Module) (g : ComputeGraph) : Prop := ∀ n ∈ g.nodes, Added ms n.module n.op

variable {ms : List Module}

theorem ownOps_closed (ms : List Module) : WiringClosed ms (OwnOps ms) where
  addNode g id module op hadd h := by
    intro n hn
    rcases List.mem_append.1 hn with hn | hn
    · exact h n hn
    · obtain rfl := List.mem_singleton.1 hn
      exact hadd
  addDependency g g' a b h hd := by
    obtain ⟨node, dep, -, -, rfl⟩ := ComputeGraph.addDependency_inv hd
    intro n hn
    obtain ⟨m, hm, -, -, hmod, hop⟩ := ComputeGraph.mem_of_core
      (ComputeGraph.map_wire_core g.nodes).symm hn
    rw [← hmod, ← hop]
    exact h m hm
  replacePlaceholder g g' a b h hr := by
    obtain ⟨placeholder, real, -, -, ⟨-, rfl⟩ | ⟨-, rfl⟩⟩ := ComputeGraph.replacePlaceholder_inv hr
    · exact h
    · intro n hn
      obtain ⟨m, hm, -, rfl⟩ := ComputeGraph.mem_rewired.1 hn
      exact h m hm

theorem compile_ownOps (ms : List Module) : OwnOps ms (finalState (compileAll ms)).graph :=
  keeps_compile (ownOps_closed ms) _ _ fun n hn => by cases hn

theorem remap_temp {c : String} (h : startsWithAt c = true) (name : String) :
    remap name c = remapTemp c name := if_pos h

theorem remap_renamed (hno : ∀ a ∈ ms, ∀ b ∈ ms, ¬ Collide a b) {m m' : Module} (hm : m ∈ ms)
    (hm' : m' ∈ ms) {c c' : String} (hc : m.IsTemp c) (hc' : m'.IsTemp c') :
    remap m.name c = remap m'.name c' ↔ m.name = m'.name ∧ c = c' := by
  rw [remap_temp hc.2, remap_temp hc'.2, remapTemp_eq_iff hc.2 hc'.2]
  refine or_iff_left ?_
  rintro (⟨r, s, hname, rfl, rfl⟩ | ⟨r, s, hname, rfl, rfl⟩)
  · exact hno m hm m' hm' ⟨r, s, hname, hc.1, hc'.1⟩
  · exact hno m' hm' m hm ⟨r, s, hname, hc'.1, hc.1⟩

theorem remap_nonTemp {c d : String} (hc : startsWithAt c = true) (hd : startsWithAt d = false)
    (name : String) : remap name c ≠ d := by
  rintro rfl
  rw [remap_temp hc, startsWithAt_remapTemp] at hd
  cases hd

theorem mem_remapSpec {m : Module} {spec : OpSpec} (hs : spec ∈ m.ops) {o : Op}
    (ho : createOp (remapSpec m.name spec) = .ok o) {x : String}
    (hx : x ∈ o.inputs ∨ x ∈ o.outputs) :
    ∃ c ∈ m.columns, remap m.name c = x := by
  obtain ⟨hin, hout⟩ := createOp_ports ho
  rw [hin, hout] at hx
  rcases hx with hx | hx
  all_goals
    obtain ⟨c, hc, rfl⟩ := List.mem_map.1 hx
    exact ⟨c, List.mem_flatMap.2 ⟨spec, hs, by simp [hc]⟩, rfl⟩

theorem Added.touches {module : String} {op : NodeOp} (h : Added ms module op) {x : String}
    (hx : x ∈ op.reads ∨ op.writes = some x) :
    ∃ m ∈ ms, m.name = module ∧ ∃ c ∈ m.columns, remap m.name c = x := by
  cases h with
  | placeholder module output => simp [NodeOp.reads, NodeOp.writes] at hx
  | anchor module col =>
    simp [NodeOp.reads, NodeOp.writes, isAnchor_identity] at hx
  | @op m spec o hm hs ho =>
    refine ⟨m, hm, rfl, mem_remapSpec hs ho ?_⟩
    rcases hx with hx | hx
    · simp only [NodeOp.reads] at hx
      split_ifs at hx
      · cases hx
      · exact .inl (List.mem_of_mem_take hx)
    · simp only [NodeOp.writes] at hx
      split_ifs at hx
      exact .inr (List.mem_of_head? hx)

theorem neverAlias_iff : NeverAlias ms ↔ ∀ a ∈ ms, ∀ b ∈ ms, ¬ Collide a b := by
  constructor
  · rintro h a ha b hb ⟨r, s, hname, hc, hc'⟩
    have hr := startsWithAt_at (r ++ "/" ++ s)
    have hs := startsWithAt_at s
    have hmeet : remap a.name ("@" ++ (r ++ "/" ++ s)) = remap b.name ("@" ++ s) := by
      rw [remap_temp hr, remap_temp hs, remapTemp_eq_iff hr hs]
      exact .inr (.inl ⟨r, s, hname, rfl, rfl⟩)
    have hnames := ((h.renamed a ha b hb _ _ ⟨hc, hr⟩ ⟨hc', hs⟩).1 hmeet).1
    have hlength := congrArg String.length (hnames.trans hname)
    simp only [String.length_append] at hlength
    have hslash : "/".length = 1 := rfl
    omega
  · intro hno
    refine ⟨fun m hm m' hm' c c' => remap_renamed hno hm hm',
      fun m hm c hc d hd => remap_nonTemp hc.2 hd m.name, fun m hm c hc n hn hne => ?_⟩
    have htouch (hx : remap m.name c ∈ n.op.reads ∨ n.op.writes = some (remap m.name c)) :
        False := by
      obtain ⟨m', hm', hname, c', hc', he⟩ := (compile_ownOps ms n hn).touches hx
      cases ht : startsWithAt c' with
      | false =>
        have hsame : remap m'.name c' = c' := if_neg (by simp [ht])
        exact remap_nonTemp hc.2 ht m.name (he.symm.trans hsame)
      | true =>
        have hnames := ((remap_renamed hno hm' hm ⟨hc', ht⟩ hc).1 he).1
        exact hne (hname.symm.trans hnames)
    exact ⟨fun hx => htouch (.inl hx), fun hx => htouch (.inr hx)⟩

def outer : Module :=
  ⟨"a", ["x"], ["y"], [], [⟨"identity", ["x"], ["@b/c"], []⟩, ⟨"identity", ["@b/c"], ["y"], []⟩]⟩

def nested : Module :=
  ⟨"a/b", ["x"], ["z"], [], [⟨"identity", ["x"], ["@c"], []⟩, ⟨"identity", ["@c"], ["z"], []⟩]⟩

-- Both temporaries are the column "@a/b/c", so the second module overwrites that of the first.
theorem temps_alias : ([outer, nested].map (·.name)).Nodup ∧
    (build [outer, nested]).isOk = true ∧
    (∃ n ∈ (finalState (compileAll [outer, nested])).graph.nodes,
      n.module = "a/b" ∧ n.op.writes = some (remap "a" "@b/c")) ∧
    ¬ NeverAlias [outer, nested] := by
  refine ⟨by decide, by decide +kernel, by decide +kernel, fun h => ?_⟩
  have hmeet := h.renamed outer (by decide) nested (by decide) "@b/c" "@c"
    ⟨by decide, rfl⟩ ⟨by decide, rfl⟩
  have hnames := (hmeet.1 rfl).1
  revert hnames
  decide

end Alias

end Lark.Column.Biz
