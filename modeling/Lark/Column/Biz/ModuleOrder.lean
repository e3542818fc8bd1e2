import Lark.Column.Biz.DataFlow
import Lark.Column.Biz.DslNames

namespace Lark.Column.Biz

open Lark.Base Lark.Column.Exec Relation

abbrev OrdinaryPort (port : String) : Prop := isLocalName port = false

section Dsl

variable {m : Module}

theorem isEmpty_remapTemp (name raw : String) : (remapTemp raw name).isEmpty = false := by
  by_contra h
  simp [remapTemp] at h

theorem isTemp_at {c : String} (h : IsTemp c) : startsWithAt c = true := by
  obtain ⟨k, rfl⟩ := h
  simp [startsWithAt, String.toList_append]

theorem site_ordinary (h : PortsAndDsl OrdinaryPort m) {key : NodeKey} {bindings : Bindings}
    {c : String} (hs : Site m key bindings c) (hnone : bindings c = none) :
    isLocalName c = false := by
  cases hs with
  | input hs => exact h.inputs c (by simp [hs])
  | output hs _ => exact h.outputs c (by simp [hs])
  | @op pre post entry _ hs hin =>
    have hops : m.ops = pre.map Prod.fst ++ entry.1 :: post.map Prod.fst := by
      have := congrArg (List.map Prod.fst) hs
      simpa [List.zipIdx_map_fst] using this
    obtain ⟨raw, hraw, rfl⟩ := List.mem_map.1 hin
    rcases (h.ops _ _ _ hops).inputs raw hraw with hl | ⟨ht, spec, hspec, hout⟩
    · rwa [remap_ordinary hl]
    · exfalso
      obtain ⟨e, he, rfl⟩ := List.mem_map.1 hspec
      obtain ⟨pre₁, pre₂, rfl⟩ := List.append_of_mem he
      have hempty : (remap m.name raw).isEmpty = false := by
        simp [remap, isTemp_at ht, isEmpty_remapTemp]
      refine op_bound (d := pre₁.foldl (Draft.op m) m.draftInputs)
        (List.mem_map_of_mem hout) hempty ?_ hnone
      rw [List.foldl_append, List.foldl_cons]
      exact Draft.extends_foldl (fun d e => Draft.extends_op e) pre₂ _

theorem mem_edges_iff {ms : List Module} (h : ∀ m ∈ ms, PortsAndDsl OrdinaryPort m)
    {a b : NodeKey} : (a, b) ∈ (ledger ms).edges ↔
      ∃ m ∈ ms, ∃ bindings c, Site m a bindings c ∧ resolveOf ms m bindings c = some b := by
  constructor
  · intro he
    obtain ⟨m, hm, ⟨bindings, c, L, hs, hr⟩ | ⟨L, name, hd⟩⟩ := ledger_edges_of he
    · rw [Ledger.resolve_eq_resolveOf fun hn => site_ordinary (h m hm) hs hn] at hr
      exact ⟨m, hm, bindings, c, hs, hr⟩
    · have := hd.known
      rw [(h m hm).dependencies] at this
      simp at this
  · rintro ⟨m, hm, bindings, c, hs, hr⟩
    exact ledger_site hm hs hr

end Dsl

section Perm

variable {ms ms' : List Module}

theorem Named.perm (h : Named ms) (hp : ms.Perm ms') : Named ms' where
  distinct := (hp.map _).nodup_iff.1 h.distinct
  plain := fun m hm => h.plain m (hp.mem_iff.2 hm)

theorem Accepted.perm (h : Accepted ms) (hp : ms.Perm ms') : Accepted ms' where
  owner := fun m hm m' hm' => h.owner m (hp.mem_iff.2 hm) m' (hp.mem_iff.2 hm')
  deps := fun m hm d hd => (hp.map _).mem_iff.1 (h.deps m (hp.mem_iff.2 hm) d hd)
  ok := fun m hm => h.ok m (hp.mem_iff.2 hm)
  resolved := fun m hm w hw => h.resolved m (hp.mem_iff.2 hm) w (hp.mem_iff.2 hw)

theorem writer_perm (hc : Compilable ms) (hp : ms.Perm ms') {c : String}
    (hl : isLocalName c = false) : writer ms' c = writer ms c := by
  cases hw : writer ms' c with
  | some m =>
    obtain ⟨hm, hcw⟩ := writer_mem hw
    rw [writer_eq hc (hp.mem_iff.2 hm) hcw hl]
  | none =>
    cases hw' : writer ms c with
    | none => rfl
    | some m =>
      obtain ⟨hm, hcw⟩ := writer_mem hw'
      have := List.find?_eq_none.1 hw m (hp.mem_iff.1 hm)
      simp [hcw] at this

theorem resolveOf_perm (hc : Compilable ms) (hp : ms.Perm ms') (m : Module) (bindings : Bindings)
    (c : String) : resolveOf ms' m bindings c = resolveOf ms m bindings c := by
  unfold resolveOf
  cases bindings c with
  | some k => rfl
  | none =>
    cases hl : isLocalName c with
    | true => rfl
    | false =>
      have hw := writer_perm hc hp hl
      have hforeign : Foreign ms' m c ↔ Foreign ms m c := by
        unfold Foreign
        rw [hw]
      have hproducer : producer ms' c = producer ms c := by
        unfold producer
        rw [hw]
      simp only [hforeign, hproducer]

theorem edges_perm (hb : ∀ m ∈ ms, PortsAndDsl OrdinaryPort m) (hc : Compilable ms)
    (hp : ms.Perm ms') (a b : NodeKey) :
    (a, b) ∈ (ledger ms').edges ↔ (a, b) ∈ (ledger ms).edges := by
  rw [mem_edges_iff hb, mem_edges_iff fun m hm => hb m (hp.mem_iff.2 hm)]
  simp only [resolveOf_perm hc hp, hp.mem_iff]

theorem nodes_perm (hp : ms.Perm ms') (k : NodeKey) :
    k ∈ (ledger ms').nodes ↔ k ∈ (ledger ms).nodes := by
  rw [mem_ledger_nodes, mem_ledger_nodes]
  simp only [hp.mem_iff]

theorem build_perm (hn : Named ms) (hb : ∀ m ∈ ms, PortsAndDsl OrdinaryPort m)
    (hp : ms.Perm ms') {g : ComputeGraph} (h : build ms = .ok g) : ∃ g', build ms' = .ok g' := by
  rw [build_ok_iff (hn.perm hp)]
  obtain ⟨ha, hacyclic⟩ := (build_ok_iff hn).1 ⟨g, h⟩
  refine ⟨ha.perm hp, ?_⟩
  simpa only [edges_perm hb (ha.compilable hn) hp] using hacyclic

end Perm

section Temps

theorem slash_not_mem_temp {c : String} (h : IsTemp c) : '/' ∉ c.toList.drop 1 := by
  obtain ⟨k, rfl⟩ := h
  have hlist : ("@t" ++ toString k).toList.drop 1 = 't' :: Nat.toDigits 10 k := by
    simp [String.toList_append]
  rw [hlist, List.mem_cons, not_or]
  refine ⟨by decide, fun hmem => ?_⟩
  exact absurd (Nat.isDigit_of_mem_toDigits (by decide) (by decide) hmem) (by decide)

theorem append_slash_inj {xs ys s t : List Char} (hs : '/' ∉ s) (ht : '/' ∉ t)
    (h : xs ++ '/' :: s = ys ++ '/' :: t) : xs = ys := by
  rcases List.append_eq_append_iff.1 h with ⟨mid, rfl, hm⟩ | ⟨mid, rfl, hm⟩
  · cases mid with
    | nil => simp
    | cons c mid =>
      obtain ⟨-, rfl⟩ := List.cons.inj hm
      exact absurd (by simp) hs
  · cases mid with
    | nil => simp
    | cons c mid =>
      obtain ⟨-, rfl⟩ := List.cons.inj hm
      exact absurd (by simp) ht

theorem remapTemp_name {c c' name name' : String} (hc : IsTemp c) (hc' : IsTemp c')
    (h : remapTemp c name = remapTemp c' name') : name = name' := by
  have hlist := congrArg String.toList h
  simp only [remapTemp, String.toList_append, String.toList_ofList, List.append_assoc] at hlist
  have htail := List.append_cancel_left hlist
  exact String.toList_inj.1 (append_slash_inj (slash_not_mem_temp hc) (slash_not_mem_temp hc')
    (by simpa using htail))

end Temps

def CrossReadsOrdered (g : ComputeGraph) : Prop :=
  ∀ n ∈ g.nodes, ∀ n' ∈ g.nodes, n.module ≠ n'.module → ∀ o o', n.op = .op o → n'.op = .op o' →
    o.isAnchor = false → o'.isAnchor = false → ∀ c ∈ o.inputs, c ∈ o'.outputs →
    TransGen (Kahn.DependsOn g.depsOf) n.ptr n'.ptr

theorem createOp_ports {spec : OpSpec} {o : Op} (h : createOp spec = .ok o) :
    o.inputs = spec.inputs ∧ o.outputs = spec.outputs := by
  unfold createOp at h
  cases hk : createKernel spec with
  | error e =>
    rw [hk] at h
    cases h
  | ok k =>
    rw [hk] at h
    cases h
    exact ⟨rfl, rfl⟩

section Order

variable {ms : List Module}

theorem shared_ordinary {m m' : Module} (hm : PortsAndDsl OrdinaryPort m)
    (hm' : PortsAndDsl OrdinaryPort m') (hne : m.name ≠ m'.name) {s t : OpSpec} (hs : s ∈ m.ops)
    (ht : t ∈ m'.ops) {c : String} (hin : c ∈ (remapSpec m.name s).inputs)
    (hout : c ∈ (remapSpec m'.name t).outputs) : isLocalName c = false := by
  obtain ⟨pre, post, hsplit⟩ := List.append_of_mem hs
  obtain ⟨pre', post', hsplit'⟩ := List.append_of_mem ht
  obtain ⟨raw, hraw, rfl⟩ := List.mem_map.1 hin
  obtain ⟨raw', hraw', he⟩ := List.mem_map.1 hout
  rcases (hm.ops _ _ _ hsplit).inputs raw hraw with hl | ⟨htemp, -⟩
  · rwa [remap_ordinary hl]
  · rcases (hm'.ops _ _ _ hsplit').outputs raw' hraw' with hl' | htemp'
    · rwa [← he, remap_ordinary hl']
    · rw [remap, if_pos (isTemp_at htemp'), remap, if_pos (isTemp_at htemp)] at he
      exact absurd (remapTemp_name htemp htemp' he.symm) hne

theorem crossReadsOrdered (hc : Compilable ms) (hb : ∀ m ∈ ms, PortsAndDsl OrdinaryPort m)
    (hd : IdsDistinct ms) {g : ComputeGraph} (h : Compiled ms g) : CrossReadsOrdered g := by
  intro n hn n' hn' hne o o' ho ho' hanchor hanchor' c hin hout
  obtain ⟨m, hm, s, j, hs, hid, hmod, hop⟩ := (h.kinds n hn o ho).resolve_left fun ha => by
    simp [ha.1] at hanchor
  obtain ⟨m', hm', t, i, ht, hid', hmod', hop'⟩ := (h.kinds n' hn' o' ho').resolve_left fun ha => by
    simp [ha.1] at hanchor'
  rw [(createOp_ports hop).1] at hin
  rw [(createOp_ports hop').2] at hout
  have hnames : m.name ≠ m'.name := by rwa [← hmod, ← hmod']
  have hl := shared_ordinary (hb m hm) (hb m' hm') hnames (List.mem_of_getElem? hs)
    (List.mem_of_getElem? ht) hin hout
  have hflow : Flow ms (.op m'.name i) (.op m.name j) :=
    .across hm' hm (fun he => hnames (by rw [he])) ht hs hl ((mem_remap_outputs hl).1 hout)
      ((mem_remap_inputs hl).1 hin)
  have hkey : IsKey ms (.op m.name j) := ⟨m, hm, rfl, (List.getElem?_eq_some_iff.1 hs).1⟩
  have hkey' : IsKey ms (.op m'.name i) := ⟨m', hm', rfl, (List.getElem?_eq_some_iff.1 ht).1⟩
  have hbyId := h.unique hd n hn m.name j hkey hid
  have hbyId' := h.unique hd n' hn' m'.name i hkey' hid'
  rw [hid] at hbyId
  rw [hid'] at hbyId'
  exact h.node_path (flow_path hc hflow) hbyId hbyId'

theorem node_ids {g : ComputeGraph} (h : Compiled ms g) (x : String) :
    (∃ n ∈ g.nodes, n.id = x) ↔ ∃ k ∈ (ledger ms).nodes, k.id = x := by
  rw [← h.has]
  constructor
  · rintro ⟨n, hn, rfl⟩
    exact h.ids n hn
  · rintro ⟨p, hp⟩
    obtain ⟨n, hn, -, hid⟩ := h.wf.byId_mem x p hp
    exact ⟨n, hn, hid⟩

theorem module_order_free {ms' : List Module} (hp : ms.Perm ms') (hn : Named ms)
    (hb : ∀ m ∈ ms, Built OrdinaryPort m) :
    ((∃ e, build ms = .error e) ∧ ∃ e, build ms' = .error e) ∨
      ∃ g g', build ms = .ok g ∧ build ms' = .ok g' ∧
        (∀ x, (∃ n ∈ g.nodes, n.id = x) ↔ ∃ n ∈ g'.nodes, n.id = x) ∧
        (∀ x y, g.Edge x y ↔ g'.Edge x y) ∧
        g.hasPlaceholders = false ∧ g'.hasPlaceholders = false ∧
        (IdsDistinct ms → CrossReadsOrdered g ∧ CrossReadsOrdered g') := by
  have hports : ∀ m ∈ ms, PortsAndDsl OrdinaryPort m := fun m hm => (hb m hm).portsAndDsl
  have hports' : ∀ m ∈ ms', PortsAndDsl OrdinaryPort m := fun m hm => hports m (hp.mem_iff.2 hm)
  cases hg : build ms with
  | error e =>
    refine .inl ⟨⟨e, rfl⟩, ?_⟩
    cases hg' : build ms' with
    | error e' => exact ⟨e', rfl⟩
    | ok g' =>
      obtain ⟨g, hok⟩ := build_perm (hn.perm hp) hports' hp.symm hg'
      rw [hok] at hg
      cases hg
  | ok g =>
    obtain ⟨g', hg'⟩ := build_perm hn hports hp hg
    obtain ⟨ha, hc, -, -⟩ := build_spec hn hg
    obtain ⟨ha', hc', -, -⟩ := build_spec (hn.perm hp) hg'
    have hcomp := ha.compilable hn
    refine .inr ⟨g, g', rfl, hg', fun x => ?_, fun x y => ?_, ?_, ?_, fun hd => ⟨?_, ?_⟩⟩
    · simp only [node_ids hc, node_ids hc', nodes_perm hp]
    · simp only [hc.edge, hc'.edge, edges_perm hports hcomp hp]
    · simpa [ComputeGraph.hasPlaceholders] using hc.real
    · simpa [ComputeGraph.hasPlaceholders] using hc'.real
    · exact crossReadsOrdered hcomp hports hd hc
    · refine crossReadsOrdered (ha'.compilable (hn.perm hp)) hports' ?_ hc'
      have hkey : ∀ k, IsKey ms' k → IsKey ms k := by
        intro k hk
        cases k <;> simpa only [IsKey, hp.mem_iff] using hk
      exact fun k k' hk hk' => hd k k' (hkey k hk) (hkey k' hk')

end Order

def copier : Module := ⟨"b", ["x"], ["y"], [], [⟨"identity", ["x"], ["y"], []⟩]⟩

def publisher : Module := ⟨"a", ["y"], ["z"], [], [⟨"identity", ["y"], ["z"], []⟩]⟩

theorem built_copier : Built OrdinaryPort copier := by
  have hdsl : (((Module.make "b").input "x").output "y").fromDsl "y = x" = .ok copier := by
    decide +kernel
  exact .fromDsl (.output (.input (.make "b") rfl) rfl) hdsl

theorem built_publisher : Built OrdinaryPort publisher := by
  have hdsl : (((Module.make "a").input "y").output "z").fromDsl "z = y" = .ok publisher := by
    decide +kernel
  exact .fromDsl (.output (.input (.make "a") rfl) rfl) hdsl

theorem module_order_free_copier : ∃ g g', build [publisher, copier] = .ok g ∧
    build [copier, publisher] = .ok g' ∧ ∀ x y, g.Edge x y ↔ g'.Edge x y := by
  have h := module_order_free (List.Perm.swap copier publisher []) ⟨by decide, by decide⟩
    (by
      intro m hm
      rcases (by simpa using hm : m = publisher ∨ m = copier) with rfl | rfl
      · exact built_publisher
      · exact built_copier)
  have hbuilds : (build [publisher, copier]).isOk = true := by decide +kernel
  rcases h with ⟨⟨e, he⟩, -⟩ | ⟨g, g', hg, hg', -, hedge, -⟩
  · rw [he] at hbuilds
    cases hbuilds
  · exact ⟨g, g', hg, hg', hedge⟩

abbrev DeclaredPort (port : String) : Prop := startsWithAt port = false

def unnamedSource : Module := ⟨"a", [], [""], [], []⟩

def unnamedSink : Module := ⟨"b", [""], [], [], []⟩

def forged : Module := ⟨"@placeholder:x", [], [], [], [⟨"identity", ["w"], ["v"], []⟩]⟩

def forgedSource : Module := ⟨"b", [], ["x/op0"], [], []⟩

def forgedSink : Module := ⟨"c", ["x/op0"], [], [], []⟩

def shadowing : Module := ⟨"a", ["p/op0"], [], [], []⟩

def shadowed : Module := ⟨"a/@in:p", [], [], [], [⟨"identity", ["y"], ["z"], []⟩]⟩

def supplier : Module := ⟨"b", [], [], [], [⟨"identity", ["x"], ["y"], []⟩]⟩

theorem built_examples : ∀ m ∈ [unnamedSource, unnamedSink, forged, forgedSource, forgedSink,
    shadowing, shadowed, supplier], Built DeclaredPort m := by
  simp only [List.forall_mem_cons, List.not_mem_nil, false_implies, implies_true, and_true]
  refine ⟨.output (.make "a") rfl, .input (.make "b") rfl, ?_, .output (.make "b") rfl,
    .input (.make "c") rfl, .input (.make "a") rfl, ?_, ?_⟩
  · have hdsl : (Module.make "@placeholder:x").fromDsl "v = w" = .ok forged := by decide +kernel
    exact .fromDsl (.make _) hdsl
  · have hdsl : (Module.make "a/@in:p").fromDsl "z = y" = .ok shadowed := by decide +kernel
    exact .fromDsl (.make _) hdsl
  · have hdsl : (Module.make "b").fromDsl "y = x" = .ok supplier := by decide +kernel
    exact .fromDsl (.make _) hdsl

-- Three ways out of the order's freedom: pass 1 skips the empty name, a module name can forge a
-- placeholder's id, and two nodes can get one id.
theorem module_order_matters :
    (∀ m ∈ [unnamedSource, unnamedSink, forged, forgedSource, forgedSink, shadowing, shadowed,
      supplier], Built DeclaredPort m) ∧
    (∃ g g', build [unnamedSource, unnamedSink] = .ok g ∧
      build [unnamedSink, unnamedSource] = .ok g' ∧
      g.Edge "b/@in:" "a/@out:" ∧ ¬ g'.Edge "b/@in:" "a/@out:") ∧
    ((∃ g, build [forged, forgedSource, forgedSink] = .ok g) ∧
      ∃ e, build [forged, forgedSink, forgedSource] = .error e) ∧
    ∃ g, build [shadowing, shadowed, supplier] = .ok g ∧ ¬ CrossReadsOrdered g := by
  refine ⟨built_examples, ⟨_, _, rfl, rfl, ?_, ?_⟩, ⟨⟨_, rfl⟩, _, rfl⟩, _, rfl, fun h => ?_⟩
  · decide
  · decide
  · have hpath := h
      ⟨2, "a/@in:p/op0", "a/@in:p", .op ⟨"identity", ["y"], ["z"], .identity⟩, []⟩ (by decide)
      ⟨4, "b/op0", "b", .op ⟨"identity", ["x"], ["y"], .identity⟩, []⟩ (by decide) (by decide)
      _ _ rfl rfl rfl rfl "y" (by decide) (by decide)
    obtain ⟨d, hd, -⟩ := TransGen.head'_iff.1 hpath
    exact List.not_mem_nil hd

end Lark.Column.Biz
