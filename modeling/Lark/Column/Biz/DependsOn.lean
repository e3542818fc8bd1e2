import Lark.Column.Biz.Schedule

namespace Lark.Column.Biz

open Lark.Base Lark.Column.Exec Relation

variable {ms : List Module} {m : Module}

def IsDataKey (ms : List Module) (k : NodeKey) : Prop := IsKey ms k ∧ ∀ a b, k ≠ .dep a b

section Keys

theorem isDataKey_input (hm : m ∈ ms) {p : String} (hp : p ∈ m.inputs) :
    IsDataKey ms (.input m.name p) := ⟨⟨m, hm, rfl, hp⟩, by simp⟩

theorem isDataKey_op (hm : m ∈ ms) {e : OpSpec × Nat} (he : e ∈ m.ops.zipIdx) :
    IsDataKey ms (.op m.name e.2) :=
  ⟨⟨m, hm, rfl, by simpa using List.snd_lt_of_mem_zipIdx he⟩, by simp⟩

theorem isDataKey_output (hm : m ∈ ms) {p : String} (hp : p ∈ m.outputs) :
    IsDataKey ms (.output m.name p) := ⟨⟨m, hm, rfl, hp⟩, by simp⟩

theorem isDataKey_noop (hm : m ∈ ms) : IsDataKey ms (.noop m.name) := ⟨⟨m, hm, rfl⟩, by simp⟩

theorem dataKeys_draft (hm : m ∈ ms) : Draft.Holds (IsDataKey ms) m.draft :=
  Draft.holds_draft (fun _ hp => isDataKey_input hm hp) (fun _ he => isDataKey_op hm he)
    (fun _ hp => isDataKey_output hm hp) (isDataKey_noop hm)

theorem dataKey_producer {c : String} {k : NodeKey} (h : producer ms c = some k) :
    IsDataKey ms k := by
  unfold producer at h
  cases hw : writer ms c with
  | none => simp [hw] at h
  | some w =>
    have hwm : w ∈ ms := List.mem_of_find?_eq_some hw
    simp only [hw] at h
    split_ifs at h
    exact (dataKeys_draft hwm).locals c k h

namespace Ledger

structure Wired (ms : List Module) (L₀ L : Ledger) : Prop where
  regs : ∀ r ∈ L.regs, IsDataKey ms r.2
  edges : ∀ e ∈ L.edges, e ∈ L₀.edges ∨ IsDataKey ms e.1 ∧ IsDataKey ms e.2

variable {L₀ L : Ledger} {bindings : Bindings} {key : NodeKey}

theorem resolve_dataKey {c : String} {k : NodeKey}
    (hb : ∀ c k, bindings c = some k → IsDataKey ms k) (hr : ∀ r ∈ L.regs, IsDataKey ms r.2)
    (h : L.resolve ms m bindings c = some k) : IsDataKey ms k := by
  unfold resolve at h
  cases hc : bindings c with
  | some k' =>
    obtain rfl : k' = k := by simpa [hc] using h
    exact hb c k' hc
  | none =>
    simp only [hc] at h
    split_ifs at h
    · obtain ⟨pre, post, hs, -⟩ := List.lookup_eq_some_iff.1 h
      exact hr (c, k) (by simp [hs])
    · exact dataKey_producer h

theorem Wired.addNode (h : Wired ms L₀ L) (key : NodeKey) : Wired ms L₀ (L.addNode key) :=
  ⟨h.regs, h.edges⟩

theorem Wired.read (h : Wired ms L₀ L) (hk : IsDataKey ms key)
    (hb : ∀ c k, bindings c = some k → IsDataKey ms k) (c : String) :
    Wired ms L₀ (L.read ms m key bindings c) where
  regs := h.regs
  edges := by
    intro e he
    rcases mem_read_edges.1 he with he | ⟨rfl, hr⟩
    · exact h.edges e he
    · exact .inr ⟨hk, resolve_dataKey hb h.regs hr⟩

theorem Wired.register (h : Wired ms L₀ L) (hk : IsDataKey ms key) (c : String) :
    Wired ms L₀ (L.register c key) where
  regs := by
    intro r hr
    rcases List.mem_cons.1 hr with rfl | hr
    · exact hk
    · exact h.regs r hr
  edges := h.edges

theorem Wired.writes {w : Ledger × Bindings} (h : Wired ms L₀ w.1) (hk : IsDataKey ms key)
    (outs : List String) : Wired ms L₀ (outs.foldl (write key) w).1 := by
  refine foldl_rule (P := fun w : Ledger × Bindings => Wired ms L₀ w.1) outs h fun w out h => ?_
  unfold write
  split_ifs
  · exact h
  · exact h.register hk out

structure DraftWired (ms : List Module) (L₀ : Ledger) (w : Ledger × Draft) : Prop where
  ledger : Wired ms L₀ w.1
  draft : Draft.Holds (IsDataKey ms) w.2

variable {w : Ledger × Draft}

theorem DraftWired.planInput (h : DraftWired ms L₀ w) (hm : m ∈ ms) {port : String}
    (hp : port ∈ m.inputs) : DraftWired ms L₀ (planInput ms m w port) where
  ledger := (h.ledger.addNode _).read (isDataKey_input hm hp) h.draft.locals port
  draft := h.draft.input (isDataKey_input hm hp)

theorem DraftWired.planOp (h : DraftWired ms L₀ w) (hm : m ∈ ms) {entry : OpSpec × Nat}
    (he : entry ∈ m.ops.zipIdx) : DraftWired ms L₀ (planOp ms m w entry) where
  ledger := by
    have hreads := foldl_rule (P := Wired ms L₀)
      (f := Ledger.read ms m (.op m.name entry.2) w.2.locals) (remapSpec m.name entry.1).inputs
      (h.ledger.addNode (.op m.name entry.2)) fun _ c h' =>
        h'.read (isDataKey_op hm he) h.draft.locals c
    exact Wired.writes hreads (isDataKey_op hm he) _
  draft := h.draft.op (isDataKey_op hm he)

theorem DraftWired.planOutput (h : DraftWired ms L₀ w) (hm : m ∈ ms) {port : String}
    (hp : port ∈ m.outputs) : DraftWired ms L₀ (planOutput ms m w port) := by
  have hdraft := h.draft.output (isDataKey_output hm hp)
  unfold Ledger.planOutput
  split
  · exact ⟨h.ledger, hdraft⟩
  · have hread := (h.ledger.addNode (.output m.name port)).read (m := m)
      (isDataKey_output hm hp) h.draft.locals port
    exact ⟨hread.register (isDataKey_output hm hp) port, hdraft⟩

theorem wired_afterNoop (hm : m ∈ ms) (hr : ∀ r ∈ L.regs, IsDataKey ms r.2) :
    Wired ms L (L.afterNoop ms m).1 := by
  have hstart : DraftWired ms L (L, .empty) := ⟨⟨hr, fun e he => .inl he⟩, Draft.holds_empty⟩
  have hin : DraftWired ms L (L.afterInputs ms m) :=
    foldl_rule_mem m.inputs hstart fun _ _ hp h => h.planInput hm hp
  have hops : DraftWired ms L (L.afterOps ms m) :=
    foldl_rule_mem m.ops.zipIdx hin fun _ _ he h => h.planOp hm he
  have houts : DraftWired ms L (L.afterOutputs ms m) :=
    foldl_rule_mem m.outputs hops fun _ _ hp h => h.planOutput hm hp
  obtain ⟨hedges, -, hregs, -, -⟩ := planNoop_frame m (L.afterOutputs ms m)
  exact ⟨fun r h => houts.ledger.regs r (hregs ▸ h), fun e h => houts.ledger.edges e (hedges ▸ h)⟩

end Ledger

def waitedFor (ms : List Module) (A B : Module) : List NodeKey :=
  if B ∈ ms.takeWhile (· ≠ A) ∧ B.draft.outputs ≠ [] then B.draft.outputs else [B.tail]

structure DeclaredEdge (ms : List Module) (A B : Module) (e : NodeKey × NodeKey) : Prop where
  known : B.name ∈ A.dependencies
  edge : e.1 = .dep A.name B.name ∧ e.2 ∈ waitedFor ms A B ∨
    e = (A.first, .dep A.name B.name) ∧ A.first.id ≠ (NodeKey.dep A.name B.name).id

theorem targets_eq (hc : Compilable ms) {pre post : List Module} {A B : Module}
    (hs : ms = pre ++ A :: post) (hB : B ∈ ms) :
    (ledgerOf ms pre).targets ms B.name = waitedFor ms A B := by
  have hnodup : ms.Nodup := hc.names.of_map _
  have hA : A ∉ pre := by
    rw [hs, List.nodup_append] at hnodup
    exact fun h => hnodup.2.2 _ h _ (by simp) rfl
  have hwhile : ms.takeWhile (· ≠ A) = pre := by
    rw [hs, List.takeWhile_append_of_pos]
    · simp
    · intro m hm
      simpa using fun h : m = A => hA (h ▸ hm)
  have hdone : (ledgerOf ms pre).done = pre := by simp [ledgerOf, ledger_foldl_done, Ledger.empty]
  have htail : tailOf ms B.name = some B.tail := by
    have hfind : ms.find? (·.name = B.name) = some B := by
      cases hf : ms.find? (·.name = B.name) with
      | none => simpa using List.find?_eq_none.1 hf B hB
      | some m =>
        have hm : m.name = B.name := by simpa using List.find?_some hf
        rw [hc.module_eq (List.mem_of_find?_eq_some hf) hB hm]
    simp [tailOf, hfind]
  unfold Ledger.targets waitedFor
  rw [hdone, hwhile]
  cases hf : pre.find? (·.name = B.name) with
  | none =>
    have hnot : B ∉ pre := by
      intro h
      simpa using List.find?_eq_none.1 hf B h
    simp [hnot, htail]
  | some m =>
    have hm : m ∈ pre := List.mem_of_find?_eq_some hf
    have hname : m.name = B.name := by simpa using List.find?_some hf
    obtain rfl := hc.module_eq (by simp [hs, hm]) hB hname
    simp [hm]

theorem ledgerOf_wired (hc : Compilable ms) {pre post : List Module} (hs : ms = pre ++ post) :
    (∀ r ∈ (ledgerOf ms pre).regs, IsDataKey ms r.2) ∧ ∀ e ∈ (ledgerOf ms pre).edges,
      IsDataKey ms e.1 ∧ IsDataKey ms e.2 ∨ ∃ A ∈ ms, ∃ B ∈ ms, DeclaredEdge ms A B e := by
  induction pre using List.reverseRecOn generalizing post with
  | nil => simp [ledgerOf, Ledger.empty]
  | append_singleton pre m ih =>
    have hs' : ms = pre ++ m :: post := by simp [hs]
    obtain ⟨hregs, hedges⟩ := ih hs'
    have hm : m ∈ ms := by simp [hs]
    have hw := Ledger.wired_afterNoop hm hregs
    have hlast : ledgerOf ms (pre ++ [m]) = (ledgerOf ms pre).planModule ms m := by
      simp [ledgerOf]
    rw [hlast]
    refine ⟨fun r hr => hw.regs r ?_, fun e he => ?_⟩
    · have hsame : ((ledgerOf ms pre).planModule ms m).regs =
          ((ledgerOf ms pre).afterNoop ms m).1.regs := (Ledger.planDeps_frame ms m _ _).2.1
      rwa [← hsame]
    · rcases (Ledger.mem_planDeps_edges ms m (ledgerOf ms pre)).1 he with he | ⟨name, hknown, he⟩
      · rcases hw.edges e he with he | he
        · exact hedges e he
        · exact .inl he
      · obtain ⟨B, hB, rfl⟩ := hc.deps m hm name hknown
        rw [targets_eq hc hs' hB] at he
        exact .inr ⟨m, hm, B, hB, hknown, he⟩

theorem planned_cases (hc : Compilable ms) {a b : NodeKey} (h : PlannedEdge ms a b) :
    IsDataKey ms a ∧ IsDataKey ms b ∨ ∃ A ∈ ms, ∃ B ∈ ms, DeclaredEdge ms A B (a, b) :=
  (@ledgerOf_wired ms hc ms [] (by simp)).2 _ h

theorem planned_of_declared (hc : Compilable ms) {A B : Module} (hA : A ∈ ms) (hB : B ∈ ms)
    {a b : NodeKey} (h : DeclaredEdge ms A B (a, b)) : PlannedEdge ms a b := by
  obtain ⟨pre, post, hs⟩ := List.append_of_mem hA
  refine ledger_edges_after hs (Ledger.planModule_depEdge ms A _ ⟨h.known, ?_⟩)
  rw [targets_eq hc hs hB]
  exact h.edge

theorem isDataKey_waitedFor {A B : Module} (hB : B ∈ ms) {k : NodeKey} (h : k ∈ waitedFor ms A B) :
    IsDataKey ms k := by
  unfold waitedFor at h
  split_ifs at h
  · exact (dataKeys_draft hB).outputs k h
  · obtain rfl := List.mem_singleton.1 h
    exact (dataKeys_draft hB).tail _ B.draft_tail

theorem isKey_first (hm : m ∈ ms) : IsKey ms m.first := by
  unfold Module.first
  cases hf : m.draft.first with
  | some k => exact ((dataKeys_draft hm).first k hf).1
  | none =>
    cases hd : m.dependencies with
    | nil => exact ⟨m, hm, rfl⟩
    | cons d ds => exact ⟨m, hm, rfl, by simp [hd]⟩

theorem isKey_of_planned (hc : Compilable ms) {a b : NodeKey} (h : PlannedEdge ms a b) :
    IsKey ms a ∧ IsKey ms b := by
  rcases planned_cases hc h with ⟨ha, hb⟩ | ⟨A, hA, B, hB, hknown, ⟨ha, hb⟩ | ⟨he, -⟩⟩
  · exact ⟨ha.1, hb.1⟩
  · obtain rfl : a = .dep A.name B.name := ha
    exact ⟨⟨A, hA, rfl, hknown⟩, (isDataKey_waitedFor hB hb).1⟩
  · obtain ⟨rfl, rfl⟩ := Prod.mk.inj he
    exact ⟨isKey_first hA, A, hA, rfl, hknown⟩

end Keys

section Paths

variable {A B : Module}

abbrev Rest (ms : List Module) (A B : Module) : NodeKey → NodeKey → Prop :=
  Avoiding (PlannedEdge ms) (.dep A.name B.name)

theorem first_module (m : Module) : m.first.module = m.name := by
  unfold Module.first
  cases hf : m.draft.first with
  | some k => exact (Draft.owned_draft m).first k hf
  | none =>
    cases hd : m.dependencies with
    | nil => rfl
    | cons d ds => rfl

theorem planned_into_dep (hc : Compilable ms) (hA : A ∈ ms) {a : NodeKey}
    (h : PlannedEdge ms a (.dep A.name B.name)) :
    a = A.first ∧ A.first ≠ .dep A.name B.name := by
  rcases planned_cases hc h with ⟨-, hb⟩ | ⟨A', hA', B', hB', -, ⟨-, hb⟩ | ⟨he, hid⟩⟩
  · exact absurd rfl (hb.2 _ _)
  · exact absurd rfl ((isDataKey_waitedFor hB' hb).2 _ _)
  · obtain ⟨rfl, hkey⟩ := Prod.mk.inj he
    obtain ⟨hname, hname'⟩ := NodeKey.dep.inj hkey
    obtain rfl := hc.module_eq hA hA' hname
    rw [hname']
    exact ⟨rfl, fun hf => hid (congrArg NodeKey.id hf)⟩

theorem planned_from_dep (hc : Compilable ms) (hA : A ∈ ms) (hB : B ∈ ms) {b : NodeKey}
    (hf : A.first ≠ .dep A.name B.name) (h : PlannedEdge ms (.dep A.name B.name) b) :
    b ∈ waitedFor ms A B := by
  rcases planned_cases hc h with ⟨ha, -⟩ | ⟨A', hA', B', hB', -, ⟨ha, hb⟩ | ⟨he, -⟩⟩
  · exact absurd rfl (ha.2 _ _)
  · obtain ⟨hname, hname'⟩ := NodeKey.dep.inj ha
    obtain rfl := hc.module_eq hA hA' hname
    obtain rfl := hc.module_eq hB hB' hname'
    exact hb
  · obtain ⟨hkey, -⟩ := Prod.mk.inj he
    have hname : A.name = A'.name := by
      rw [← first_module A', ← hkey]
      rfl
    obtain rfl := hc.module_eq hA hA' hname
    exact absurd hkey.symm hf

theorem path_via_dep (hc : Compilable ms) (hd : IdsDistinct ms) (hA : A ∈ ms) (hB : B ∈ ms)
    (hdep : B.name ∈ A.dependencies) {a b : NodeKey} (ha : IsDataKey ms a) (hb : IsDataKey ms b) :
    TransGen (PlannedEdge ms) a b ↔ TransGen (Rest ms A B) a b ∨
      A.first ≠ .dep A.name B.name ∧ ReflTransGen (Rest ms A B) a A.first ∧
        ∃ t ∈ waitedFor ms A B, ReflTransGen (Rest ms A B) t b := by
  rw [transGen_avoiding_iff (ha.2 A.name B.name) (hb.2 A.name B.name)]
  refine or_congr_right ⟨?_, ?_⟩
  · rintro ⟨x, y, hax, hx, hy, hyb⟩
    obtain ⟨rfl, hf⟩ := planned_into_dep hc hA hx
    exact ⟨hf, hax, y, planned_from_dep hc hA hB hf hy, hyb⟩
  · rintro ⟨hf, hax, t, ht, htb⟩
    have hid : A.first.id ≠ (NodeKey.dep A.name B.name).id := fun he =>
      hf (hd _ _ (isKey_first hA) ⟨A, hA, rfl, hdep⟩ he)
    exact ⟨A.first, t, hax, planned_of_declared hc hA hB ⟨hdep, .inr ⟨rfl, hid⟩⟩,
      planned_of_declared hc hA hB ⟨hdep, .inl ⟨rfl, ht⟩⟩, htb⟩

variable {g : ComputeGraph}

theorem Compiled.planned_path (h : Compiled ms g) (hc : Compilable ms) (hd : IdsDistinct ms)
    {a : NodeKey} (ha : IsKey ms a) {y : String} (hp : TransGen g.Edge a.id y) :
    ∃ b, IsKey ms b ∧ b.id = y ∧ TransGen (PlannedEdge ms) a b := by
  have hstep : ∀ {a : NodeKey} {y : String}, IsKey ms a → g.Edge a.id y →
      ∃ b, IsKey ms b ∧ b.id = y ∧ PlannedEdge ms a b := by
    intro a y ha he
    obtain ⟨a', b, hab, hid, rfl⟩ := (h.edge _ _).1 he
    obtain ⟨ha', hb⟩ := isKey_of_planned hc hab
    obtain rfl := hd _ _ ha' ha hid
    exact ⟨b, hb, rfl, hab⟩
  induction hp with
  | single he =>
    obtain ⟨b, hb, hid, hab⟩ := hstep ha he
    exact ⟨b, hb, hid, .single hab⟩
  | tail _ he ih =>
    obtain ⟨b, hb, rfl, hab⟩ := ih
    obtain ⟨c, hk, hid, hbc⟩ := hstep hb he
    exact ⟨c, hk, hid, hab.tail hbc⟩

theorem Compiled.path_iff (h : Compiled ms g) (hc : Compilable ms) (hd : IdsDistinct ms)
    {a b : NodeKey} (ha : IsKey ms a) (hb : IsKey ms b) {p q : Nat} (hp : g.byId a.id = some p)
    (hq : g.byId b.id = some q) :
    TransGen (Kahn.DependsOn g.depsOf) p q ↔ TransGen (PlannedEdge ms) a b := by
  constructor
  · intro hpath
    obtain ⟨x, y, hx, hy, hxy⟩ := h.wf.edges_of_path hpath
    obtain rfl := h.wf.byId_inj hx hp
    obtain rfl := h.wf.byId_inj hy hq
    obtain ⟨b', hb', hid, hab⟩ := h.planned_path hc hd ha hxy
    obtain rfl := hd _ _ hb' hb hid
    exact hab
  · exact fun hab => h.node_path hab hp hq

def RunsOp (m : Module) (k : Nat) (n : ComputeNode) : Prop :=
  k < m.ops.length ∧ n.id = opId m.name k

def OrderedAfter (g : ComputeGraph) (A B : Module) : Prop :=
  ∀ n ∈ g.nodes, ∀ w ∈ g.nodes, ∀ i j, RunsOp A i n → RunsOp B j w →
    TransGen (Kahn.DependsOn g.depsOf) n.ptr w.ptr ∧ ∀ libm store s,
      ReflTransGen (Step libm g) (startState g store) s → s.phase n.ptr ≠ .idle →
        (s.phase w.ptr).isDone = true

-- Each op of A that the rest of the wiring leaves free to run before an op of B comes after A's
-- first node, and that op of B comes before what the declared dependency waits for.
def DependencyKept (ms : List Module) (A B : Module) : Prop :=
  ∀ i < A.ops.length, ∀ j < B.ops.length,
    TransGen (Rest ms A B) (.op A.name i) (.op B.name j) ∨
      A.first ≠ .dep A.name B.name ∧ ReflTransGen (Rest ms A B) (.op A.name i) A.first ∧
        ∃ t ∈ waitedFor ms A B, ReflTransGen (Rest ms A B) t (.op B.name j)

theorem isDataKey_of_lt (hm : m ∈ ms) {k : Nat} (hk : k < m.ops.length) :
    IsDataKey ms (.op m.name k) := ⟨⟨m, hm, rfl, hk⟩, by simp⟩

theorem RunsOp.byId (h : Compiled ms g) (hd : IdsDistinct ms) (hm : m ∈ ms) {k : Nat}
    {n : ComputeNode} (hn : n ∈ g.nodes) (hr : RunsOp m k n) :
    g.byId (NodeKey.op m.name k).id = some n.ptr := by
  have hby := h.unique hd n hn m.name k (isDataKey_of_lt hm hr.1).1 hr.2
  rwa [hr.2] at hby

theorem Compiled.op_node (h : Compiled ms g) (hm : m ∈ ms) {k : Nat} (hk : k < m.ops.length) :
    ∃ n ∈ g.nodes, RunsOp m k n := by
  have hentry : (m.ops[k], k) ∈ m.ops.zipIdx := by
    rw [List.mem_zipIdx_iff_getElem?]
    exact List.getElem?_eq_getElem hk
  obtain ⟨p, hp⟩ := (h.has (NodeKey.op m.name k).id).2
    ⟨_, (mem_ledger_nodes ms).2 ⟨m, hm, .op hentry⟩, rfl⟩
  obtain ⟨n, hn, -, hid⟩ := h.wf.byId_mem _ _ hp
  exact ⟨n, hn, hk, hid⟩

theorem done_before {libm : Libm} {store : TensorStore} {s : ExecState} {n : ComputeNode} {q : Nat}
    (hwf : g.WellFormed) (hn : n ∈ g.nodes) (hpath : TransGen (Kahn.DependsOn g.depsOf) n.ptr q)
    (hrun : ReflTransGen (Step libm g) (startState g store) s) (hbegun : s.phase n.ptr ≠ .idle) :
    (s.phase q).isDone = true := by
  have hinv : ExecInv g s :=
    run_invariant (fun _ _ h hst => execInv_step h hst hwf) (execInv_start g store) hrun
  exact hinv.done_of_path hwf hn (hinv.waited n hn hbegun) hpath

theorem dependsOn_orders_iff (hn : Named ms) (hd : IdsDistinct ms) (hb : build ms = .ok g)
    (hA : A ∈ ms) (hB : B ∈ ms) (hdep : B.name ∈ A.dependencies) :
    OrderedAfter g A B ↔ DependencyKept ms A B := by
  obtain ⟨ha, h, -, -⟩ := build_spec hn hb
  have hc := ha.compilable hn
  have hvia : ∀ {i j : Nat}, i < A.ops.length → j < B.ops.length →
      (TransGen (PlannedEdge ms) (.op A.name i) (.op B.name j) ↔ _) := fun hi hj =>
    path_via_dep hc hd hA hB hdep (isDataKey_of_lt hA hi) (isDataKey_of_lt hB hj)
  constructor
  · intro hord i hi j hj
    obtain ⟨n, hnn, hni⟩ := h.op_node hA hi
    obtain ⟨w, hwn, hwj⟩ := h.op_node hB hj
    have hpath := (hord n hnn w hwn i j hni hwj).1
    rw [h.path_iff hc hd (isDataKey_of_lt hA hi).1 (isDataKey_of_lt hB hj).1
      (hni.byId h hd hA hnn) (hwj.byId h hd hB hwn)] at hpath
    exact (hvia hi hj).1 hpath
  · intro hkept n hnn w hwn i j hni hwj
    have hplan := (hvia hni.1 hwj.1).2 (hkept i hni.1 j hwj.1)
    have hpath := h.node_path hplan (hni.byId h hd hA hnn) (hwj.byId h hd hB hwn)
    exact ⟨hpath, fun libm store s hrun hbegun => done_before h.wf hnn hpath hrun hbegun⟩

end Paths

def producing : Module := ⟨"b", [], ["y"], [], [⟨"identity", ["x"], ["y"], []⟩]⟩

def following : Module := ⟨"a", ["x"], ["z"], ["b"], [⟨"identity", ["x"], ["z"], []⟩]⟩

def followingKeys : List NodeKey :=
  [.input "a" "x", .op "a" 0, .output "a" "z", .noop "a", .dep "a" "b", .op "b" 0, .output "b" "y",
    .noop "b"]

theorem following_ids : IdsDistinct [following, producing] := by
  have hkeys : ∀ k, IsKey [following, producing] k → k ∈ followingKeys := by
    intro k hk
    cases k with
    | op m i =>
      obtain ⟨M, hM, rfl, hi⟩ := hk
      rcases List.mem_cons.1 hM with rfl | hM
      · obtain rfl : i = 0 := by simpa [following] using hi
        decide
      · obtain rfl := List.mem_singleton.1 hM
        obtain rfl : i = 0 := by simpa [producing] using hi
        decide
    | _ => simpa [IsKey, following, producing, followingKeys, eq_comm] using hk
  have hinj : ∀ k ∈ followingKeys, ∀ k' ∈ followingKeys, k.id = k'.id → k = k' := by decide
  exact fun k k' hk hk' => hinj k (hkeys k hk) k' (hkeys k' hk')

theorem following_kept : DependencyKept [following, producing] following producing := by
  intro i hi j hj
  obtain rfl : i = 0 := by simpa [following] using hi
  obtain rfl : j = 0 := by simpa [producing] using hj
  have hread : (NodeKey.op "a" 0, NodeKey.input "a" "x") ∈
      (ledger [following, producing]).edges := by decide
  refine .inr ⟨by decide, .single ⟨hread, by decide, by decide⟩, .op "b" 0, by decide, .refl⟩

theorem dependsOn_orders_following : ∃ g, build [following, producing] = .ok g ∧
    OrderedAfter g following producing := by
  obtain ⟨g, hb⟩ : ∃ g, build [following, producing] = .ok g := ⟨_, rfl⟩
  have hn : Named [following, producing] := ⟨by decide, by decide⟩
  exact ⟨g, hb, (dependsOn_orders_iff hn following_ids hb (by simp) (by simp) (by decide)).2
    following_kept⟩

def unanchored : Module := ⟨"a", [], ["z"], ["b"], [⟨"identity", ["x"], ["z"], []⟩]⟩

theorem dependsOn_ignored : ∃ g, build [producing, unanchored] = .ok g ∧
    ¬ OrderedAfter g unanchored producing := by
  obtain ⟨g, hb, hnodes⟩ : ∃ g, build [producing, unanchored] = .ok g ∧ g.nodes =
      [⟨0, "b/op0", "b", .op ⟨"identity", ["x"], ["y"], .identity⟩, []⟩,
        ⟨1, "a/op0", "a", .op ⟨"identity", ["x"], ["z"], .identity⟩, []⟩,
        ⟨2, "a/@dep:b", "a", .op ⟨"identity", ["a"], ["a"], .identity⟩, [0]⟩] := ⟨_, rfl, rfl⟩
  refine ⟨g, hb, fun hord => ?_⟩
  obtain ⟨hpath, -⟩ := hord _ (by rw [hnodes]; exact List.mem_cons_of_mem _ List.mem_cons_self) _
    (by rw [hnodes]; exact List.mem_cons_self) 0 0 ⟨by decide, rfl⟩ ⟨by decide, rfl⟩
  have hfree : ∀ q, ¬ Kahn.DependsOn g.depsOf 1 q := by
    simp [Kahn.DependsOn, ComputeGraph.depsOf, hnodes]
  obtain ⟨q, hq, -⟩ := TransGen.head'_iff.1 hpath
  exact hfree q hq

end Lark.Column.Biz
