import Lark.Column.Biz.CompilerRuns

namespace Lark.Column.Biz

open Lark.Base Lark.Column.Exec

inductive Site (m : Module) : NodeKey → Bindings → String → Prop
  | input {pre post : List String} {port : String} (h : m.inputs = pre ++ port :: post) :
    Site m (.input m.name port) (pre.foldl (Draft.input m) .empty).locals port
  | op {pre post : List (OpSpec × Nat)} {entry : OpSpec × Nat} {col : String}
    (h : m.ops.zipIdx = pre ++ entry :: post) (hc : col ∈ (remapSpec m.name entry.1).inputs) :
    Site m (.op m.name entry.2) (pre.foldl (Draft.op m) m.draftInputs).locals col
  | output {pre post : List String} {port : String} (h : m.outputs = pre ++ port :: post)
    (hn : (pre.foldl (Draft.output m) m.draftOps).locals port = none) :
    Site m (.output m.name port) (pre.foldl (Draft.output m) m.draftOps).locals port

inductive Made (m : Module) : NodeKey → Prop
  | input {port : String} (h : port ∈ m.inputs) : Made m (.input m.name port)
  | op {entry : OpSpec × Nat} (h : entry ∈ m.ops.zipIdx) : Made m (.op m.name entry.2)
  | output {pre post : List String} {port : String} (h : m.outputs = pre ++ port :: post)
    (hn : (pre.foldl (Draft.output m) m.draftOps).locals port = none) :
    Made m (.output m.name port)
  | noop (h : m.draftOutputs.tail = none) : Made m (.noop m.name)
  | dep {name : String} (h : name ∈ m.dependencies) : Made m (.dep m.name name)

def Module.first (m : Module) : NodeKey :=
  (m.draft.first.or (m.dependencies.head?.map (.dep m.name))).getD (.noop m.name)

theorem deps_first (m : Module) {pre post : List String} {name : String}
    (h : m.dependencies = pre ++ name :: post) :
    ((pre.foldl (Draft.dep m) m.draft).dep m name).first = some m.first := by
  have hfold : ∀ (names : List String) (d : Draft),
      (names.foldl (Draft.dep m) d).first = d.first.or (names.head?.map (.dep m.name)) := by
    intro names
    induction names with
    | nil => simp
    | cons n names ih =>
      intro d
      rw [List.foldl_cons, ih]
      cases hd : d.first with
      | none => simp [Draft.dep, Draft.anchored, hd]
      | some k => simp [Draft.dep, Draft.anchored, hd]
  have hlast : (pre.foldl (Draft.dep m) m.draft).dep m name =
      (pre ++ [name]).foldl (Draft.dep m) m.draft := by
    rw [List.foldl_append]
    rfl
  have hhead : (pre ++ [name]).head? = m.dependencies.head? := by
    rw [h]
    cases pre <;> rfl
  have hsome : m.dependencies.head? ≠ none := by simp [h]
  rw [hlast, hfold, hhead, Module.first]
  cases hf : m.draft.first with
  | some k => simp
  | none =>
    obtain ⟨n, hn⟩ := Option.ne_none_iff_exists'.1 hsome
    simp [hn]

def resolveOf (ms : List Module) (m : Module) (bindings : Bindings) (col : String) :
    Option NodeKey :=
  match bindings col with
  | some key => some key
  | none => if isLocalName col then none else if Foreign ms m col then producer ms col else none

namespace Ledger

variable {ms : List Module} {m : Module} {L : Ledger} {key : NodeKey} {bindings : Bindings}

theorem mem_read_edges {col : String} {e : NodeKey × NodeKey} :
    e ∈ (L.read ms m key bindings col).edges ↔
      e ∈ L.edges ∨ e.1 = key ∧ L.resolve ms m bindings col = some e.2 := by
  obtain ⟨a, b⟩ := e
  simp only [read, List.mem_append, List.mem_map, Option.mem_toList, Prod.mk.injEq]
  refine or_congr_right ?_
  constructor
  · rintro ⟨t, ht, rfl, rfl⟩
    exact ⟨rfl, ht⟩
  · rintro ⟨rfl, hb⟩
    exact ⟨b, hb, rfl, rfl⟩

theorem mem_read_wanted {col c : String} :
    c ∈ (L.read ms m key bindings col).wanted ↔
      c ∈ L.wanted ∨ c = col ∧ Wants ms m bindings c := by
  simp only [read]
  split_ifs with hw
  · rw [List.mem_cons, or_comm]
    refine or_congr_right ⟨fun he => ⟨he, he ▸ hw⟩, And.left⟩
  · constructor
    · exact .inl
    · rintro (hc | ⟨rfl, hc⟩)
      · exact hc
      · exact absurd hc hw

theorem resolve_congr {L' : Ledger} (h : L'.regs = L.regs) :
    L'.resolve ms m bindings = L.resolve ms m bindings := by
  funext col
  simp only [resolve, h]

theorem mem_reads_edges {cols : List String} {e : NodeKey × NodeKey} :
    e ∈ (cols.foldl (read ms m key bindings) L).edges ↔
      e ∈ L.edges ∨ e.1 = key ∧ ∃ c ∈ cols, L.resolve ms m bindings c = some e.2 := by
  rw [foldl_collects (S := fun (L : Ledger) e => e ∈ L.edges) (A := fun _ c e => e.1 = key ∧
    L.resolve ms m bindings c = some e.2)]
  · refine or_congr_right ?_
    constructor
    · rintro ⟨pre, c, post, rfl, hk, hc⟩
      exact ⟨hk, c, by simp, hc⟩
    · rintro ⟨hk, c, hc, hr⟩
      obtain ⟨pre, post, rfl⟩ := List.append_of_mem hc
      exact ⟨pre, c, post, rfl, hk, hr⟩
  · intro pre c post _ e
    rw [mem_read_edges, resolve_congr (reads_frame ms m key bindings L pre).2.1]

theorem mem_reads_wanted {cols : List String} {c : String} :
    c ∈ (cols.foldl (read ms m key bindings) L).wanted ↔
      c ∈ L.wanted ∨ c ∈ cols ∧ Wants ms m bindings c := by
  rw [foldl_collects (S := fun (L : Ledger) c => c ∈ L.wanted) (A := fun _ col c => c = col ∧
    Wants ms m bindings c)]
  · refine or_congr_right ?_
    constructor
    · rintro ⟨pre, col, post, rfl, rfl, hw⟩
      exact ⟨by simp, hw⟩
    · rintro ⟨hc, hw⟩
      obtain ⟨pre, post, rfl⟩ := List.append_of_mem hc
      exact ⟨pre, c, post, rfl, rfl, hw⟩
  · exact fun pre col post _ c => mem_read_wanted

theorem writes_rest (outs : List String) (w : Ledger × Bindings) :
    (outs.foldl (write key) w).1.edges = w.1.edges ∧
      (outs.foldl (write key) w).1.wanted = w.1.wanted ∧
      (outs.foldl (write key) w).1.tails = w.1.tails := by
  refine foldl_rule (P := fun w' : Ledger × Bindings => w'.1.edges = w.1.edges ∧
    w'.1.wanted = w.1.wanted ∧ w'.1.tails = w.1.tails) outs ⟨rfl, rfl, rfl⟩ fun w' out h => ?_
  unfold write
  split_ifs
  · exact h
  · exact h

section Inputs

variable (ms m L)

theorem inputs_snd (pre : List String) :
    (pre.foldl (planInput ms m) (L, .empty)).2 = pre.foldl (Draft.input m) .empty :=
  foldl_snd (fun _ _ => rfl) pre _

theorem mem_afterInputs_edges {e : NodeKey × NodeKey} :
    e ∈ (L.afterInputs ms m).1.edges ↔ e ∈ L.edges ∨ ∃ pre port post,
      m.inputs = pre ++ port :: post ∧ e.1 = .input m.name port ∧
        (pre.foldl (planInput ms m) (L, .empty)).1.resolve ms m
          (pre.foldl (Draft.input m) .empty).locals port = some e.2 := by
  unfold afterInputs
  rw [foldl_collects (S := fun (w : Ledger × Draft) e => e ∈ w.1.edges)]
  intro pre port post _ e
  rw [← inputs_snd ms m L pre]
  exact mem_read_edges

theorem mem_afterInputs_wanted {c : String} :
    c ∈ (L.afterInputs ms m).1.wanted ↔ c ∈ L.wanted ∨ ∃ pre port post,
      m.inputs = pre ++ port :: post ∧ c = port ∧
        Wants ms m (pre.foldl (Draft.input m) .empty).locals c := by
  unfold afterInputs
  rw [foldl_collects (S := fun (w : Ledger × Draft) c => c ∈ w.1.wanted)]
  intro pre port post _ e
  rw [← inputs_snd ms m L pre]
  exact mem_read_wanted

end Inputs

section Ops

variable (ms m L)

theorem mem_afterOps_edges {e : NodeKey × NodeKey} :
    e ∈ (L.afterOps ms m).1.edges ↔ e ∈ (L.afterInputs ms m).1.edges ∨ ∃ pre entry post,
      m.ops.zipIdx = pre ++ entry :: post ∧ e.1 = .op m.name entry.2 ∧
        ∃ c ∈ (remapSpec m.name entry.1).inputs,
          (pre.foldl (planOp ms m) (L.afterInputs ms m)).1.resolve ms m
            (pre.foldl (Draft.op m) m.draftInputs).locals c = some e.2 := by
  unfold afterOps
  rw [foldl_collects (S := fun (w : Ledger × Draft) e => e ∈ w.1.edges)]
  intro pre entry post _ e
  rw [← ops_snd ms m L pre]
  simp only [planOp]
  rw [(writes_rest _ _).1, mem_reads_edges]
  rfl

theorem mem_afterOps_wanted {c : String} :
    c ∈ (L.afterOps ms m).1.wanted ↔ c ∈ (L.afterInputs ms m).1.wanted ∨ ∃ pre entry post,
      m.ops.zipIdx = pre ++ entry :: post ∧ c ∈ (remapSpec m.name entry.1).inputs ∧
        Wants ms m (pre.foldl (Draft.op m) m.draftInputs).locals c := by
  unfold afterOps
  rw [foldl_collects (S := fun (w : Ledger × Draft) c => c ∈ w.1.wanted)]
  intro pre entry post _ e
  rw [← ops_snd ms m L pre]
  simp only [planOp]
  rw [(writes_rest _ _).2.1, mem_reads_wanted]
  rfl

end Ops

section Outputs

variable (ms m L)

theorem mem_afterOutputs_edges {e : NodeKey × NodeKey} :
    e ∈ (L.afterOutputs ms m).1.edges ↔ e ∈ (L.afterOps ms m).1.edges ∨ ∃ pre port post,
      m.outputs = pre ++ port :: post ∧
        (pre.foldl (Draft.output m) m.draftOps).locals port = none ∧
        e.1 = .output m.name port ∧
        (pre.foldl (planOutput ms m) (L.afterOps ms m)).1.resolve ms m
          (pre.foldl (Draft.output m) m.draftOps).locals port = some e.2 := by
  unfold afterOutputs
  rw [foldl_collects (S := fun (w : Ledger × Draft) e => e ∈ w.1.edges)]
  intro pre port post _ e
  rw [← outputs_snd ms m L pre]
  generalize pre.foldl (planOutput ms m) (L.afterOps ms m) = w
  unfold planOutput
  split
  · rename_i k hk
    simp [hk]
  · rename_i hk
    simp only [hk, true_and]
    exact mem_read_edges

theorem mem_afterOutputs_wanted {c : String} :
    c ∈ (L.afterOutputs ms m).1.wanted ↔ c ∈ (L.afterOps ms m).1.wanted ∨ ∃ pre port post,
      m.outputs = pre ++ port :: post ∧
        (pre.foldl (Draft.output m) m.draftOps).locals port = none ∧ c = port ∧
        Wants ms m (pre.foldl (Draft.output m) m.draftOps).locals c := by
  unfold afterOutputs
  rw [foldl_collects (S := fun (w : Ledger × Draft) c => c ∈ w.1.wanted)]
  intro pre port post _ e
  rw [← outputs_snd ms m L pre]
  generalize pre.foldl (planOutput ms m) (L.afterOps ms m) = w
  unfold planOutput
  split
  · rename_i k hk
    simp [hk]
  · rename_i hk
    simp only [hk, true_and]
    exact @mem_read_wanted ms m w.1 (.output m.name port) _ _ _

end Outputs

section Frames

variable (ms m L)

theorem planNoop_frame (w : Ledger × Draft) :
    (planNoop m w).1.edges = w.1.edges ∧ (planNoop m w).1.wanted = w.1.wanted ∧
      (planNoop m w).1.regs = w.1.regs ∧ (planNoop m w).1.tails = w.1.tails ∧
      (planNoop m w).1.done = w.1.done := by
  unfold planNoop
  split <;> exact ⟨rfl, rfl, rfl, rfl, rfl⟩

theorem planDep_frame (w : Ledger × Draft) (name : String) :
    (planDep ms m w name).1.wanted = w.1.wanted ∧ (planDep ms m w name).1.regs = w.1.regs ∧
      (planDep ms m w name).1.done = w.1.done ∧
      (planDep ms m w name).1.tails = name :: w.1.tails := by
  simp only [planDep]
  split_ifs <;> exact ⟨rfl, rfl, rfl, rfl⟩

theorem afterNoop_frame :
    (L.afterNoop ms m).1.tails = L.tails ∧ (L.afterNoop ms m).1.done = L.done := by
  have hin : (L.afterInputs ms m).1.tails = L.tails ∧ (L.afterInputs ms m).1.done = L.done :=
    foldl_rule (P := fun w : Ledger × Draft => w.1.tails = L.tails ∧ w.1.done = L.done) m.inputs
      ⟨rfl, rfl⟩ fun _ _ h => h
  have hops : (L.afterOps ms m).1.tails = L.tails ∧ (L.afterOps ms m).1.done = L.done := by
    refine foldl_rule (P := fun w : Ledger × Draft => w.1.tails = L.tails ∧ w.1.done = L.done)
      m.ops.zipIdx hin fun w entry h => ?_
    have hreads := foldl_rule (P := fun L' : Ledger => L'.tails = w.1.tails ∧ L'.done = w.1.done)
      (f := read ms m (.op m.name entry.2) w.2.locals) (remapSpec m.name entry.1).inputs
      (b := w.1.addNode (.op m.name entry.2)) ⟨rfl, rfl⟩ fun _ _ h => h
    simp only [planOp]
    rw [(writes_rest _ _).2.2, (writes_frame _ _ _).2, hreads.1, hreads.2]
    exact h
  have houts : (L.afterOutputs ms m).1.tails = L.tails ∧ (L.afterOutputs ms m).1.done = L.done := by
    refine foldl_rule (P := fun w : Ledger × Draft => w.1.tails = L.tails ∧ w.1.done = L.done)
      m.outputs hops fun w port h => ?_
    unfold planOutput
    split
    · exact h
    · exact h
  obtain ⟨-, -, -, htails, hdone⟩ := planNoop_frame m (L.afterOutputs ms m)
  exact ⟨htails.trans houts.1, hdone.trans houts.2⟩

theorem planDeps_frame (names : List String) (w : Ledger × Draft) :
    (names.foldl (planDep ms m) w).1.wanted = w.1.wanted ∧
      (names.foldl (planDep ms m) w).1.regs = w.1.regs ∧
      (names.foldl (planDep ms m) w).1.done = w.1.done := by
  refine foldl_rule (P := fun w' : Ledger × Draft => w'.1.wanted = w.1.wanted ∧
    w'.1.regs = w.1.regs ∧ w'.1.done = w.1.done) names ⟨rfl, rfl, rfl⟩ fun w' name h => ?_
  obtain ⟨hw, hr, hd, -⟩ := planDep_frame ms m w' name
  exact ⟨hw.trans h.1, hr.trans h.2.1, hd.trans h.2.2⟩

theorem mem_planModule_tails {d : String} :
    d ∈ (L.planModule ms m).tails ↔ d ∈ L.tails ∨ d ∈ m.dependencies := by
  change d ∈ (L.afterDeps ms m).1.tails ↔ _
  unfold afterDeps
  rw [foldl_collects (S := fun (w : Ledger × Draft) d => d ∈ w.1.tails) (A := fun _ name d => d = name),
    (afterNoop_frame ms m L).1]
  · refine or_congr_right ?_
    constructor
    · rintro ⟨pre, name, post, he, rfl⟩
      simp [he]
    · intro hd
      obtain ⟨pre, post, he⟩ := List.append_of_mem hd
      exact ⟨pre, d, post, he, rfl⟩
  · intro pre name post _ d
    rw [(planDep_frame ms m _ name).2.2.2, List.mem_cons, or_comm]

end Frames

theorem resolve_of_resolveOf {col : String} {k : NodeKey}
    (h : resolveOf ms m bindings col = some k) : L.resolve ms m bindings col = some k := by
  unfold resolveOf at h
  unfold resolve
  cases hb : bindings col with
  | some k' => simpa [hb] using h
  | none =>
    simp only [hb] at h ⊢
    split_ifs at h ⊢ with hl hf
    exact h

theorem resolve_eq_resolveOf {col : String} (h : bindings col = none → isLocalName col = false) :
    L.resolve ms m bindings col = resolveOf ms m bindings col := by
  unfold resolveOf resolve
  cases hb : bindings col with
  | some k' => rfl
  | none => simp [h hb]

structure DepEdge (ms : List Module) (m : Module) (L : Ledger) (name : String)
    (e : NodeKey × NodeKey) : Prop where
  known : name ∈ m.dependencies
  edge : e.1 = .dep m.name name ∧ e.2 ∈ L.targets ms name ∨
    e = (m.first, .dep m.name name) ∧ m.first.id ≠ (NodeKey.dep m.name name).id

section Module

variable (ms m L)

theorem mem_planDeps_edges {e : NodeKey × NodeKey} :
    e ∈ (L.afterDeps ms m).1.edges ↔
      e ∈ (L.afterNoop ms m).1.edges ∨ ∃ name, DepEdge ms m L name e := by
  unfold afterDeps
  rw [foldl_collects (S := fun (w : Ledger × Draft) e => e ∈ w.1.edges)
    (A := fun _ name e => DepEdge ms m L name e)]
  · refine or_congr_right ?_
    constructor
    · rintro ⟨pre, name, post, -, h⟩
      exact ⟨name, h⟩
    · rintro ⟨name, h⟩
      obtain ⟨pre, post, he⟩ := List.append_of_mem h.known
      exact ⟨pre, name, post, he, h⟩
  · intro pre name post hsplit e
    have hdone := (planDeps_frame ms m pre (L.afterNoop ms m)).2.2
    have htargets : targets ms (pre.foldl (planDep ms m) (L.afterNoop ms m)).1 name =
        targets ms L name := by
      unfold targets
      rw [hdone, (afterNoop_frame ms m L).2]
    have hdraft : (pre.foldl (planDep ms m) (L.afterNoop ms m)).2 =
        pre.foldl (Draft.dep m) m.draft := by
      rw [planDeps_snd, afterNoop_snd]
    have hmem : name ∈ m.dependencies := by simp [hsplit]
    simp only [planDep, htargets, hdraft, deps_first m hsplit, Option.getD_some]
    obtain ⟨a, b⟩ := e
    constructor
    · intro h
      split_ifs at h with hid
      · rcases List.mem_append.1 h with h | h
        · exact .inl h
        · obtain ⟨t, ht, he⟩ := List.mem_map.1 h
          obtain ⟨rfl, rfl⟩ := Prod.mk.inj he
          exact .inr ⟨hmem, .inl ⟨rfl, ht⟩⟩
      · rcases List.mem_append.1 h with h | h
        · rcases List.mem_append.1 h with h | h
          · exact .inl h
          · obtain ⟨t, ht, he⟩ := List.mem_map.1 h
            obtain ⟨rfl, rfl⟩ := Prod.mk.inj he
            exact .inr ⟨hmem, .inl ⟨rfl, ht⟩⟩
        · exact .inr ⟨hmem, .inr ⟨by simpa using h, hid⟩⟩
    · rintro (h | ⟨-, ⟨ha, hb⟩ | ⟨he, hid⟩⟩)
      · split_ifs
        · exact List.mem_append_left _ h
        · exact List.mem_append_left _ (List.mem_append_left _ h)
      · have hnew : (a, b) ∈ (targets ms L name).map fun t => (NodeKey.dep m.name name, t) :=
          List.mem_map.2 ⟨b, hb, by rw [← ha]⟩
        split_ifs
        · exact List.mem_append_right _ hnew
        · exact List.mem_append_left _ (List.mem_append_right _ hnew)
      · rw [if_neg hid, he]
        exact List.mem_append_right _ (by simp)

theorem planModule_edges_of {e : NodeKey × NodeKey} (h : e ∈ (L.planModule ms m).edges) :
    e ∈ L.edges ∨ (∃ bindings c L', Site m e.1 bindings c ∧
      resolve ms m bindings L' c = some e.2) ∨ ∃ name, DepEdge ms m L name e := by
  change e ∈ (L.afterDeps ms m).1.edges at h
  rw [mem_planDeps_edges, afterNoop, (planNoop_frame m _).1, mem_afterOutputs_edges,
    mem_afterOps_edges, mem_afterInputs_edges] at h
  obtain ⟨a, b⟩ := e
  rcases h with (((h | ⟨pre, port, post, hs, rfl, hr⟩) | ⟨pre, entry, post, hs, rfl, c, hc, hr⟩) |
    ⟨pre, port, post, hs, hn, rfl, hr⟩) | h
  · exact .inl h
  · exact .inr (.inl ⟨_, _, _, .input hs, hr⟩)
  · exact .inr (.inl ⟨_, _, _, .op hs hc, hr⟩)
  · exact .inr (.inl ⟨_, _, _, .output hs hn, hr⟩)
  · exact .inr (.inr h)

theorem planModule_edges_mono {e : NodeKey × NodeKey} (h : e ∈ L.edges) :
    e ∈ (L.planModule ms m).edges := by
  change e ∈ (L.afterDeps ms m).1.edges
  rw [mem_planDeps_edges, afterNoop, (planNoop_frame m _).1, mem_afterOutputs_edges,
    mem_afterOps_edges, mem_afterInputs_edges]
  exact .inl (.inl (.inl (.inl h)))

theorem planModule_site {a b : NodeKey} {bindings : Bindings} {c : String}
    (h : Site m a bindings c) (hr : resolveOf ms m bindings c = some b) :
    (a, b) ∈ (L.planModule ms m).edges := by
  change (a, b) ∈ (L.afterDeps ms m).1.edges
  rw [mem_planDeps_edges, afterNoop, (planNoop_frame m _).1, mem_afterOutputs_edges,
    mem_afterOps_edges, mem_afterInputs_edges]
  refine .inl ?_
  cases h with
  | input hs => exact .inl (.inl (.inr ⟨_, _, _, hs, rfl, resolve_of_resolveOf hr⟩))
  | op hs hc => exact .inl (.inr ⟨_, _, _, hs, rfl, _, hc, resolve_of_resolveOf hr⟩)
  | output hs hn => exact .inr ⟨_, _, _, hs, hn, rfl, resolve_of_resolveOf hr⟩

theorem planModule_depEdge {name : String} {e : NodeKey × NodeKey} (h : DepEdge ms m L name e) :
    e ∈ (L.planModule ms m).edges := by
  change e ∈ (L.afterDeps ms m).1.edges
  rw [mem_planDeps_edges]
  exact .inr ⟨name, h⟩

theorem mem_planModule_wanted {c : String} :
    c ∈ (L.planModule ms m).wanted ↔
      c ∈ L.wanted ∨ ∃ key bindings, Site m key bindings c ∧ Wants ms m bindings c := by
  change c ∈ (L.afterDeps ms m).1.wanted ↔ _
  unfold afterDeps
  rw [(planDeps_frame ms m _ _).1, afterNoop, (planNoop_frame m _).2.1, mem_afterOutputs_wanted,
    mem_afterOps_wanted, mem_afterInputs_wanted]
  constructor
  · rintro (((h | ⟨pre, port, post, hs, rfl, hw⟩) | ⟨pre, entry, post, hs, hc, hw⟩) |
      ⟨pre, port, post, hs, hn, rfl, hw⟩)
    · exact .inl h
    · exact .inr ⟨_, _, .input hs, hw⟩
    · exact .inr ⟨_, _, .op hs hc, hw⟩
    · exact .inr ⟨_, _, .output hs hn, hw⟩
  · rintro (h | ⟨key, bindings, hsite, hw⟩)
    · exact .inl (.inl (.inl h))
    · cases hsite with
      | input hs => exact .inl (.inl (.inr ⟨_, _, _, hs, rfl, hw⟩))
      | op hs hc => exact .inl (.inr ⟨_, _, _, hs, hc, hw⟩)
      | output hs hn => exact .inr ⟨_, _, _, hs, hn, rfl, hw⟩

theorem mem_planModule_nodes {k : NodeKey} :
    k ∈ (L.planModule ms m).nodes ↔ k ∈ L.nodes ∨ Made m k := by
  have hdeps : k ∈ (L.planModule ms m).nodes ↔
      k ∈ (L.afterNoop ms m).1.nodes ∨ ∃ name ∈ m.dependencies, k = .dep m.name name := by
    change k ∈ (L.afterDeps ms m).1.nodes ↔ _
    unfold afterDeps
    rw [foldl_collects (S := fun (w : Ledger × Draft) k => k ∈ w.1.nodes)
      (A := fun _ name k => k = .dep m.name name)]
    · refine or_congr_right ?_
      constructor
      · rintro ⟨pre, name, post, he, rfl⟩
        exact ⟨name, by simp [he], rfl⟩
      · rintro ⟨name, hn, rfl⟩
        obtain ⟨pre, post, he⟩ := List.append_of_mem hn
        exact ⟨pre, name, post, he, rfl⟩
    · intro pre name post _ k
      simp only [planDep]
      split_ifs <;> simp [addEdges, addNode]
  have hnoop : k ∈ (L.afterNoop ms m).1.nodes ↔
      k ∈ (L.afterOutputs ms m).1.nodes ∨ m.draftOutputs.tail = none ∧ k = .noop m.name := by
    have hsnd : (L.afterOutputs ms m).2 = m.draftOutputs := outputs_snd ms m L m.outputs
    unfold afterNoop planNoop
    rw [hsnd]
    split
    · rename_i t ht
      simp [ht]
    · rename_i ht
      simp [ht, addNode]
  have houts : k ∈ (L.afterOutputs ms m).1.nodes ↔ k ∈ (L.afterOps ms m).1.nodes ∨
      ∃ pre port post, m.outputs = pre ++ port :: post ∧
        (pre.foldl (Draft.output m) m.draftOps).locals port = none ∧ k = .output m.name port := by
    unfold afterOutputs
    rw [foldl_collects (S := fun (w : Ledger × Draft) k => k ∈ w.1.nodes)]
    intro pre port post _ k
    rw [← outputs_snd ms m L pre]
    generalize pre.foldl (planOutput ms m) (L.afterOps ms m) = w
    unfold planOutput
    split
    · rename_i t ht
      simp [ht]
    · rename_i ht
      simp [ht, addNode, register]
  have hops : k ∈ (L.afterOps ms m).1.nodes ↔
      k ∈ L.nodes ∨ (∃ port ∈ m.inputs, k = .input m.name port) ∨
        ∃ entry ∈ m.ops.zipIdx, k = .op m.name entry.2 := by
    rw [afterOps, planOps_nodes, afterInputs, planInputs_nodes]
    simp only [List.mem_append, List.mem_map, or_assoc, eq_comm]
  rw [hdeps, hnoop, houts, hops]
  constructor
  · rintro ((((h | ⟨port, hp, rfl⟩ | ⟨entry, he, rfl⟩) | ⟨pre, port, post, hs, hn, rfl⟩) |
      ⟨ht, rfl⟩) | ⟨name, hn, rfl⟩)
    · exact .inl h
    · exact .inr (.input hp)
    · exact .inr (.op he)
    · exact .inr (.output hs hn)
    · exact .inr (.noop ht)
    · exact .inr (.dep hn)
  · rintro (h | h)
    · exact .inl (.inl (.inl (.inl h)))
    · cases h with
      | input hp => exact .inl (.inl (.inl (.inr (.inl ⟨_, hp, rfl⟩))))
      | op he => exact .inl (.inl (.inl (.inr (.inr ⟨_, he, rfl⟩))))
      | output hs hn => exact .inl (.inl (.inr ⟨_, _, _, hs, hn, rfl⟩))
      | noop ht => exact .inl (.inr ⟨ht, rfl⟩)
      | dep hn => exact .inr ⟨_, hn, rfl⟩

end Module

section Registered

variable (ms m L)

theorem writes_registered (key : NodeKey) (outs : List String) (w : Ledger × Bindings) :
    (∀ e ∈ w.1.regs, e ∈ (outs.foldl (write key) w).1.regs) ∧
      ∀ c, (outs.foldl (write key) w).2 c ≠ none →
        w.2 c ≠ none ∨ ∃ k, (c, k) ∈ (outs.foldl (write key) w).1.regs := by
  induction outs generalizing w with
  | nil => exact ⟨fun e he => he, fun c hc => .inl hc⟩
  | cons out outs ih =>
    obtain ⟨hgrow, hreg⟩ := ih (write key w out)
    have hkeep : ∀ e ∈ w.1.regs, e ∈ (write key w out).1.regs := by
      intro e he
      unfold write
      split_ifs
      · exact he
      · exact List.mem_cons_of_mem _ he
    refine ⟨fun e he => hgrow e (hkeep e he), fun c hc => ?_⟩
    rcases hreg c hc with hw | hw
    · change bindWrite key w.2 out c ≠ none at hw
      by_cases hskip : out.isEmpty ∨ (w.2 out).isSome
      · refine .inl ?_
        rwa [bindWrite, if_pos hskip] at hw
      · by_cases hco : c = out
        · subst hco
          refine .inr ⟨key, hgrow _ ?_⟩
          rw [write, if_neg hskip]
          exact List.mem_cons_self
        · refine .inl ?_
          rwa [bindWrite, if_neg hskip, Function.update_of_ne hco] at hw
    · exact .inr hw

structure Registered (m : Module) (L : Ledger) (w : Ledger × Draft) : Prop where
  grows : ∀ e ∈ L.regs, e ∈ w.1.regs
  bound : ∀ c, w.2.locals c ≠ none → c ∈ m.inputs ∨ ∃ k, (c, k) ∈ w.1.regs

theorem registered_afterOutputs : Registered m L (L.afterOutputs ms m) := by
  have hin : Registered m L (L.afterInputs ms m) := by
    refine ⟨?_, fun c hc => .inl ?_⟩
    · exact foldl_rule (P := fun w : Ledger × Draft => ∀ e ∈ L.regs, e ∈ w.1.regs) m.inputs
        (fun e he => he) fun _ _ h => h
    · rw [afterInputs_snd, m.draftInputs_locals] at hc
      by_contra hnot
      simp [hnot] at hc
  have hops : Registered m L (L.afterOps ms m) := by
    refine foldl_rule (P := Registered m L) m.ops.zipIdx hin fun w entry h => ?_
    obtain ⟨hgrow, hreg⟩ := writes_registered (.op m.name entry.2)
      (remapSpec m.name entry.1).outputs ((remapSpec m.name entry.1).inputs.foldl
        (read ms m (.op m.name entry.2) w.2.locals) (w.1.addNode (.op m.name entry.2)), w.2.locals)
    have hsame := (reads_frame ms m (.op m.name entry.2) w.2.locals
      (w.1.addNode (.op m.name entry.2)) (remapSpec m.name entry.1).inputs).2.1
    have hkeep : ∀ e ∈ w.1.regs, e ∈ (planOp ms m w entry).1.regs := by
      intro e he
      exact hgrow e (by rw [hsame]; exact he)
    refine ⟨fun e he => hkeep e (h.grows e he), fun c hc => ?_⟩
    rcases hreg c (by rw [writes_locals]; exact hc) with hw | hw
    · rcases h.bound c hw with hi | ⟨k, hk⟩
      · exact .inl hi
      · exact .inr ⟨k, hkeep _ hk⟩
    · exact .inr hw
  refine foldl_rule (P := Registered m L) m.outputs hops fun w port h => ?_
  unfold planOutput
  split
  · rename_i k hk
    refine ⟨h.grows, fun c hc => h.bound c ?_⟩
    simpa [Draft.output, hk] using hc
  · rename_i hk
    refine ⟨fun e he => List.mem_cons_of_mem _ (h.grows e he), fun c hc => ?_⟩
    by_cases hcp : c = port
    · subst hcp
      exact .inr ⟨_, List.mem_cons_self⟩
    · have hold : w.2.locals c ≠ none := by simpa [Draft.output, hk, hcp] using hc
      rcases h.bound c hold with hi | ⟨k, hk⟩
      · exact .inl hi
      · exact .inr ⟨k, List.mem_cons_of_mem _ hk⟩

theorem planModule_registered :
    (∀ e ∈ L.regs, e ∈ (L.planModule ms m).regs) ∧
      ∀ c, m.draft.locals c ≠ none → c ∈ m.inputs ∨ ∃ k, (c, k) ∈ (L.planModule ms m).regs := by
  have h := registered_afterOutputs ms m L
  have hregs : (L.planModule ms m).regs = (L.afterOutputs ms m).1.regs := by
    change (L.afterDeps ms m).1.regs = _
    unfold afterDeps
    rw [(planDeps_frame ms m _ _).2.1, afterNoop, (planNoop_frame m _).2.2.1]
  have hsnd : (L.afterOutputs ms m).2 = m.draftOutputs := outputs_snd ms m L m.outputs
  refine ⟨fun e he => hregs ▸ h.grows e he, fun c hc => hregs ▸ h.bound c ?_⟩
  rwa [hsnd, ← Draft.noop_locals m m.draftOutputs]

end Registered

end Ledger

section

variable (ms : List Module)

theorem ledger_collects {γ : Type} {S : Ledger → γ → Prop} {A : Module → γ → Prop}
    (hstart : ∀ y, ¬ S .empty y)
    (hstep : ∀ L m y, S (Ledger.planModule ms m L) y ↔ S L y ∨ A m y) (y : γ) :
    S (ledger ms) y ↔ ∃ m ∈ ms, A m y := by
  unfold ledger
  rw [foldl_collects (S := S) (A := fun _ m y => A m y) fun pre m post _ y => hstep _ m y]
  constructor
  · rintro (h | ⟨pre, m, post, hs, h⟩)
    · exact absurd h (hstart y)
    · exact ⟨m, by simp [hs], h⟩
  · rintro ⟨m, hm, h⟩
    obtain ⟨pre, post, hs⟩ := List.append_of_mem hm
    exact .inr ⟨pre, m, post, hs, h⟩

theorem mem_ledger_wanted {c : String} : c ∈ (ledger ms).wanted ↔
    ∃ m ∈ ms, ∃ key bindings, Site m key bindings c ∧ Ledger.Wants ms m bindings c :=
  ledger_collects ms (S := fun L c => c ∈ L.wanted) (by simp [Ledger.empty])
    (fun L m c => Ledger.mem_planModule_wanted ms m L) c

theorem mem_ledger_nodes {k : NodeKey} : k ∈ (ledger ms).nodes ↔ ∃ m ∈ ms, Made m k :=
  ledger_collects ms (S := fun L k => k ∈ L.nodes) (by simp [Ledger.empty])
    (fun L m k => Ledger.mem_planModule_nodes ms m L) k

theorem mem_ledger_tails {d : String} : d ∈ (ledger ms).tails ↔ ∃ m ∈ ms, d ∈ m.dependencies :=
  ledger_collects ms (S := fun L d => d ∈ L.tails) (by simp [Ledger.empty])
    (fun L m d => Ledger.mem_planModule_tails ms m L) d

def ledgerOf (pre : List Module) : Ledger := pre.foldl (fun L m => L.planModule ms m) .empty

variable {ms}

theorem ledger_split {pre post : List Module} {m : Module} (hs : ms = pre ++ m :: post) :
    ledger ms = post.foldl (fun L m => L.planModule ms m) ((ledgerOf ms pre).planModule ms m) := by
  conv_lhs => rw [ledger]
  nth_rewrite 2 [hs]
  rw [List.foldl_append, List.foldl_cons]
  rfl

theorem ledger_edges_after {pre post : List Module} {m : Module} (hs : ms = pre ++ m :: post)
    {e : NodeKey × NodeKey} (h : e ∈ ((ledgerOf ms pre).planModule ms m).edges) :
    e ∈ (ledger ms).edges := by
  rw [ledger_split hs]
  exact foldl_rule (P := fun L : Ledger => e ∈ L.edges) post h
    fun L m hL => Ledger.planModule_edges_mono ms m L hL

theorem ledger_site {m : Module} (hm : m ∈ ms) {a b : NodeKey} {bindings : Bindings} {c : String}
    (h : Site m a bindings c) (hr : resolveOf ms m bindings c = some b) :
    (a, b) ∈ (ledger ms).edges := by
  obtain ⟨pre, post, hs⟩ := List.append_of_mem hm
  exact ledger_edges_after hs (Ledger.planModule_site ms m _ h hr)

theorem ledger_edges_of {e : NodeKey × NodeKey} (h : e ∈ (ledger ms).edges) :
    ∃ m ∈ ms, (∃ bindings c L', Site m e.1 bindings c ∧
      Ledger.resolve ms m bindings L' c = some e.2) ∨
        ∃ L name, Ledger.DepEdge ms m L name e := by
  have hall : ∀ (rest : List Module) (L : Ledger), (∀ m ∈ rest, m ∈ ms) →
      e ∈ (rest.foldl (fun L m => L.planModule ms m) L).edges → e ∈ L.edges ∨
        ∃ m ∈ ms, (∃ bindings c L', Site m e.1 bindings c ∧
          Ledger.resolve ms m bindings L' c = some e.2) ∨
            ∃ L name, Ledger.DepEdge ms m L name e := by
    intro rest
    induction rest with
    | nil => exact fun L _ h => .inl h
    | cons m rest ih =>
      intro L hsub h
      rcases ih (L.planModule ms m) (fun m' hm' => hsub m' (by simp [hm'])) h with h | h
      · rcases Ledger.planModule_edges_of ms m L h with h | h | ⟨name, h⟩
        · exact .inl h
        · exact .inr ⟨m, hsub m (by simp), .inl h⟩
        · exact .inr ⟨m, hsub m (by simp), .inr ⟨L, name, h⟩⟩
      · exact .inr h
  rcases hall ms Ledger.empty (fun m hm => hm) h with h | h
  · simp [Ledger.empty] at h
  · exact h

theorem ledger_registered {m : Module} (hm : m ∈ ms) {c : String}
    (hc : m.draft.locals c ≠ none) : c ∈ m.inputs ∨ ∃ k, (c, k) ∈ (ledger ms).regs := by
  obtain ⟨pre, post, hs⟩ := List.append_of_mem hm
  refine ((Ledger.planModule_registered ms m (ledgerOf ms pre)).2 c hc).imp_right
    fun ⟨k, hk⟩ => ⟨k, ?_⟩
  rw [ledger_split hs]
  exact foldl_rule (P := fun L : Ledger => (c, k) ∈ L.regs) post hk
    fun L m hL => (Ledger.planModule_registered ms m L).1 _ hL

end

end Lark.Column.Biz
