import Lark.Column.Biz.CompilerSim

namespace Lark.Column.Biz

open Lark.Base Lark.Column.Exec CompileM

variable {ms : List Module}

structure FrameOf (d : Draft) (fr : Frame) : Prop where
  locals : ∀ c, fr.locals c = (d.locals c).map NodeKey.id
  first : fr.firstNode = (d.first.map NodeKey.id).getD ""
  tail : fr.tail = (d.tail.map NodeKey.id).getD ""
  outputs : fr.outputNodes = d.outputs.map NodeKey.id

def anchorFrame (fr : Frame) (id : String) : Frame :=
  { fr with firstNode := if fr.firstNode.isEmpty then id else fr.firstNode }

theorem FrameOf.anchored {d : Draft} {fr : Frame} (h : FrameOf d fr) (key : NodeKey) :
    FrameOf (d.anchored key) (anchorFrame fr key.id) where
  locals := h.locals
  first := by
    simp only [anchorFrame, Draft.anchored, h.first]
    cases d.first with
    | none => simp
    | some k => simp [k.id_isEmpty]
  tail := h.tail
  outputs := h.outputs

theorem Draft.first_anchored {d : Draft} {key k : NodeKey} (hk : k ∈ (d.anchored key).first) :
    k ∈ d.first ∨ k = key := by
  cases hf : d.first with
  | none =>
    obtain rfl : key = k := by simpa [Draft.anchored, hf] using hk
    exact .inr rfl
  | some k' =>
    obtain rfl : k' = k := by simpa [Draft.anchored, hf] using hk
    exact .inl rfl

theorem createOp_identity (col : String) :
    createOp (identitySpec col) = .ok ⟨"identity", [col], [col], .identity⟩ := rfl

theorem isAnchor_identity (col : String) :
    Op.isAnchor ⟨"identity", [col], [col], .identity⟩ = true := by
  simp [Op.isAnchor]

theorem Tracks.addAnchor {s : Compiler} {L : Ledger} (h : Tracks ms s L) (hc : Compilable ms)
    {key : NodeKey} (hk : IsKey ms key) (hop : ∀ m k, key ≠ .op m k) (m : Module) {col : String}
    (hcol : Declared ms col) (fr : Frame) :
    Runs (Biz.addAnchor m key.id col fr) s fun fr' s' =>
      fr' = anchorFrame fr key.id ∧ Tracks ms s' (L.addNode key) := by
  unfold Biz.addAnchor
  rw [createOp_identity]
  refine Runs.bind (Q := fun o s' => o = ⟨"identity", [col], [col], .identity⟩ ∧ s' = s)
    (Runs.pure ⟨rfl, rfl⟩) fun o s' he => ?_
  obtain ⟨rfl, rfl⟩ := he
  refine (h.addNode hc hk (.inl ⟨⟨isAnchor_identity col, by simpa using hcol⟩, hop⟩)).bind ?_
  exact fun _ s'' h'' => Runs.pure ⟨rfl, h''⟩

structure Stage (ms : List Module) (m : Module) (done : List Module) (fr : Frame) (s : Compiler)
    (w : Ledger × Draft) : Prop where
  frame : FrameOf w.2 fr
  tracks : Tracks ms s w.1
  locals_mem : ∀ c k, w.2.locals c = some k → k ∈ w.1.nodes
  first_mem : ∀ k ∈ w.2.first, k ∈ w.1.nodes
  tail_mem : ∀ k ∈ w.2.tail, k ∈ w.1.nodes
  outputs_mem : ∀ k ∈ w.2.outputs, k ∈ w.1.nodes
  own : ∀ c k, (c, k) ∈ w.1.regs → k.module = m.name → w.2.locals c ≠ none
  modules : ∀ k ∈ w.1.nodes, k.module = m.name ∨ k.module ∈ done.map (·.name)
  done_eq : w.1.done = done

namespace Ledger

variable (m : Module) (key : NodeKey) (locals : Bindings) (L : Ledger) (col : String)

@[simp] theorem read_nodes : (L.read ms m key locals col).nodes = L.nodes := rfl

@[simp] theorem read_regs : (L.read ms m key locals col).regs = L.regs := rfl

@[simp] theorem read_done : (L.read ms m key locals col).done = L.done := rfl

variable (ms) in
theorem reads_frame (cols : List String) :
    (cols.foldl (Ledger.read ms m key locals) L).nodes = L.nodes ∧
      (cols.foldl (Ledger.read ms m key locals) L).regs = L.regs ∧
      (cols.foldl (Ledger.read ms m key locals) L).done = L.done :=
  foldl_rule (P := fun L' : Ledger => L'.nodes = L.nodes ∧ L'.regs = L.regs ∧
    L'.done = L.done) cols ⟨rfl, rfl, rfl⟩ fun _ _ h => h

theorem writes_frame (outs : List String) (w : Ledger × Bindings) :
    (outs.foldl (Ledger.write key) w).1.nodes = w.1.nodes ∧
      (outs.foldl (Ledger.write key) w).1.done = w.1.done := by
  refine foldl_rule (P := fun w' : Ledger × Bindings => w'.1.nodes = w.1.nodes ∧
    w'.1.done = w.1.done) outs ⟨rfl, rfl⟩ fun w' out h => ?_
  unfold Ledger.write
  split_ifs
  · exact h
  · exact h

theorem writes_locals (outs : List String) (w : Ledger × Bindings) :
    (outs.foldl (Ledger.write key) w).2 = outs.foldl (bindWrite key) w.2 := by
  induction outs generalizing w with
  | nil => rfl
  | cons out outs ih => exact ih _

end Ledger

namespace Stage

variable {m : Module} {done : List Module} {fr : Frame} {s : Compiler} {w : Ledger × Draft}

theorem input (h : Stage ms m done fr s w) (hc : Compilable ms) (hm : m ∈ ms) {port : String}
    (hp : port ∈ m.inputs) :
    Runs (compileInput m fr port) s fun fr' s' =>
      Stage ms m done fr' s' (Ledger.planInput ms m w port) := by
  unfold compileInput
  have hkey : IsKey ms (.input m.name port) := ⟨m, hm, rfl, hp⟩
  refine (h.tracks.addAnchor hc hkey (by simp) m ⟨m, hm, .inl hp⟩ fr).bind fun fr₁ s₁ ⟨hfr, h₁⟩ => ?_
  subst hfr
  have hmem : NodeKey.input m.name port ∈ (w.1.addNode (.input m.name port)).nodes := by
    simp [Ledger.addNode]
  refine (h₁.wireInput hc hmem (m := m) h.frame.locals
    (fun c k hk => List.mem_append_left _ (h.locals_mem c k hk)) h.own port).bind fun _ s₂ h₂ => ?_
  have hframe := h.frame.anchored (.input m.name port)
  refine Runs.pure ⟨?_, h₂, ?_, ?_, ?_, ?_, ?_, ?_, h.done_eq⟩
  · refine ⟨fun c => ?_, hframe.first, hframe.tail, hframe.outputs⟩
    by_cases hcp : c = port
    · subst hcp
      simp [Frame.bind, Ledger.planInput, Draft.input, NodeKey.id]
    · simpa [Frame.bind, Ledger.planInput, Draft.input, anchorFrame, hcp] using h.frame.locals c
  · intro c k hk
    by_cases hcp : c = port
    · subst hcp
      obtain rfl : NodeKey.input m.name c = k := by
        simpa [Ledger.planInput, Draft.input] using hk
      exact hmem
    · refine List.mem_append_left _ (h.locals_mem c k ?_)
      simpa [Ledger.planInput, Draft.input, hcp] using hk
  · intro k hk
    rcases Draft.first_anchored hk with hk | rfl
    · exact List.mem_append_left _ (h.first_mem k hk)
    · exact hmem
  · intro k hk
    exact List.mem_append_left _ (h.tail_mem k hk)
  · intro k hk
    exact List.mem_append_left _ (h.outputs_mem k hk)
  · intro c k hk hmod
    by_cases hcp : c = port
    · subst hcp
      simp [Ledger.planInput, Draft.input]
    · simpa [Ledger.planInput, Draft.input, hcp] using h.own c k hk hmod
  · intro k hk
    rcases List.mem_append.1 hk with hk | hk
    · exact h.modules k hk
    · obtain rfl := List.mem_singleton.1 hk
      exact .inl rfl

theorem reads (hc : Compilable ms) {L : Ledger} (h : Tracks ms s L) {key : NodeKey}
    (hkey : key ∈ L.nodes) {bindings : Bindings} {locals : Locals}
    (hl : ∀ c, locals c = (bindings c).map NodeKey.id)
    (hin : ∀ c k, bindings c = some k → k ∈ L.nodes)
    (hown : ∀ c k, (c, k) ∈ L.regs → k.module = m.name → bindings c ≠ none)
    (cols : List String) :
    Runs (cols.forM fun col => Biz.wireInput key.id col locals m.name) s
      fun _ s' => Tracks ms s' (cols.foldl (Ledger.read ms m key bindings) L) := by
  refine Runs.forM (V := fun s L => Tracks ms s L) h fun pre col post s' _ h' => ?_
  obtain ⟨hn, hr, -⟩ := Ledger.reads_frame ms m key bindings L pre
  exact h'.wireInput hc (by rwa [hn]) hl (fun c k hk => by rw [hn]; exact hin c k hk)
    (fun c k hk => hown c k (by rwa [hr] at hk)) col

theorem remap_written {spec : OpSpec} (hs : spec ∈ m.ops) {out : String}
    (ho : out ∈ (remapSpec m.name spec).outputs) (hl : isLocalName out = false) :
    out ∈ m.written := by
  obtain ⟨raw, hraw, rfl⟩ := List.mem_map.1 ho
  unfold remap at hl ⊢
  split_ifs at hl ⊢ with hat
  · exfalso
    simp [isLocalName, startsWithAt, remapTemp, String.toList_append] at hl
  · exact List.mem_append_right _ (List.mem_flatMap.2 ⟨spec, hs, hraw⟩)

structure Writing (ms : List Module) (m : Module) (done : List Module) (key : NodeKey)
    (nodes : List NodeKey) (locals : Locals) (s : Compiler) (w : Ledger × Bindings) : Prop where
  tracks : Tracks ms s w.1
  locals_eq : ∀ c, locals c = (w.2 c).map NodeKey.id
  locals_mem : ∀ c k, w.2 c = some k → k ∈ w.1.nodes
  own : ∀ c k, (c, k) ∈ w.1.regs → k.module = m.name → w.2 c ≠ none
  nodes_eq : w.1.nodes = nodes
  done_eq : w.1.done = done

theorem write {key : NodeKey} {nodes : List NodeKey} {locals : Locals} {u : Ledger × Bindings}
    (h : Writing ms m done key nodes locals s u) (hc : Compilable ms) (hkey : key ∈ nodes)
    (hmod : key.module = m.name) {out : String} (hfresh : out.isEmpty = false → u.2 out = none)
    (hord : out.isEmpty = false → isLocalName out = false →
      producer ms out = some key ∧ ∃ x ∈ writer ms out, x.name = key.module) :
    Runs (compileWrite m key.id locals out) s fun locals' s' =>
      Writing ms m done key nodes locals' s' (Ledger.write key u out) := by
  unfold compileWrite
  cases he : out.isEmpty with
  | true =>
    simp only [if_true]
    refine Runs.pure ?_
    have hw : Ledger.write key u out = u := by simp [Ledger.write, bindWrite, he]
    rwa [hw]
  | false =>
    have hnone := hfresh he
    have hlocal : (locals out).isSome = false := by simp [h.locals_eq out, hnone]
    have hw : Ledger.write key u out =
        (u.1.register out key, Function.update u.2 out (some key)) := by
      simp [Ledger.write, bindWrite, he, hnone]
    simp only [Bool.false_eq_true, if_false, hlocal]
    rw [hw]
    have hreg := h.tracks.registerProducer hc (by rwa [h.nodes_eq]) (hord he)
    rw [hmod] at hreg
    refine hreg.bind fun _ s' h' => Runs.pure ⟨h', ?_, ?_, ?_, h.nodes_eq, h.done_eq⟩
    · intro c
      by_cases hco : c = out
      · simp [hco]
      · simp [hco, h.locals_eq c]
    · intro c k hk
      by_cases hco : c = out
      · subst hco
        obtain rfl : key = k := by simpa using hk
        show key ∈ u.1.nodes
        rwa [h.nodes_eq]
      · exact h.locals_mem c k (by simpa [hco] using hk)
    · intro c k hk hkm
      by_cases hco : c = out
      · simp [hco]
      · rcases List.mem_cons.1 hk with he' | hk
        · exact absurd (Prod.mk.inj he').1 hco
        · simpa [hco] using h.own c k hk hkm

theorem writes {key : NodeKey} {nodes : List NodeKey} {locals : Locals} {u : Ledger × Bindings}
    (h : Writing ms m done key nodes locals s u) (hc : Compilable ms) (hkey : key ∈ nodes)
    (hmod : key.module = m.name) {outs : List String}
    (hout : ∀ pre out post, outs = pre ++ out :: post → out.isEmpty = false →
      pre.foldl (bindWrite key) u.2 out = none ∧ (isLocalName out = false →
        producer ms out = some key ∧ ∃ x ∈ writer ms out, x.name = key.module)) :
    Runs (outs.foldlM (compileWrite m key.id) locals) s fun locals' s' =>
      Writing ms m done key nodes locals' s' (outs.foldl (Ledger.write key) u) := by
  refine Runs.foldlM (g := Ledger.write key) h fun pre out post locals' s' hsplit h' => ?_
  refine write h' hc hkey hmod (fun he => ?_) fun he => (hout pre out post hsplit he).2
  rw [Ledger.writes_locals]
  exact (hout pre out post hsplit he).1

theorem producer_eq (hc : Compilable ms) (hm : m ∈ ms) {col : String} {key : NodeKey}
    (hw : col ∈ m.written) (hl : isLocalName col = false) (hi : col ∉ m.inputs)
    (hd : m.draft.locals col = some key) :
    producer ms col = some key ∧ ∃ x ∈ writer ms col, x.name = key.module := by
  have hwr := writer_eq hc hm hw hl
  refine ⟨by simp [producer, hwr, hi, hd], m, hwr, ?_⟩
  exact ((Draft.owned_draft m).locals col key hd).symm

theorem op (h : Stage ms m done fr s w) (hc : Compilable ms) (hm : m ∈ ms) {entry : OpSpec × Nat}
    (hspec : m.ops[entry.2]? = some entry.1) (hok : OpOk m w.2 entry)
    (hfresh : NodeKey.op m.name entry.2 ∉ w.1.nodes)
    (hinputs : ∀ p ∈ m.inputs, w.2.locals p ≠ none) (hext : (w.2.op m entry).Extends m.draft) :
    Runs (compileOp m fr entry) s fun fr' s' =>
      Stage ms m done fr' s' (Ledger.planOp ms m w entry) := by
  obtain ⟨o, ho⟩ := hok.constructible
  have hmem : entry.1 ∈ m.ops := List.mem_of_getElem? hspec
  have hkey : IsKey ms (.op m.name entry.2) := ⟨m, hm, rfl, (List.getElem?_eq_some_iff.1 hspec).1⟩
  unfold compileOp
  simp only [ho]
  refine Runs.bind (Q := fun o' s' => o' = o ∧ s' = s) (Runs.pure ⟨rfl, rfl⟩) fun o' s' he => ?_
  obtain ⟨rfl, rfl⟩ := he
  refine (h.tracks.addNode hc hkey (.inr ⟨m, hm, entry.1, entry.2, hspec, rfl, rfl, ho, hfresh⟩)).bind
    fun _ s₁ h₁ => ?_
  have hkmem : NodeKey.op m.name entry.2 ∈ (w.1.addNode (.op m.name entry.2)).nodes := by
    simp [Ledger.addNode]
  have hin : ∀ c k, w.2.locals c = some k → k ∈ (w.1.addNode (.op m.name entry.2)).nodes :=
    fun c k hk => List.mem_append_left _ (h.locals_mem c k hk)
  refine (reads hc h₁ hkmem h.frame.locals hin h.own (remapSpec m.name entry.1).inputs).bind
    fun _ s₂ h₂ => ?_
  obtain ⟨hn, hr, hd⟩ := Ledger.reads_frame ms m (.op m.name entry.2) w.2.locals
    (w.1.addNode (.op m.name entry.2)) (remapSpec m.name entry.1).inputs
  have hwriting : Writing ms m done (.op m.name entry.2)
      (w.1.addNode (.op m.name entry.2)).nodes fr.locals s₂
      ((remapSpec m.name entry.1).inputs.foldl (Ledger.read ms m (.op m.name entry.2) w.2.locals)
        (w.1.addNode (.op m.name entry.2)), w.2.locals) :=
    ⟨h₂, h.frame.locals, fun c k hk => by rw [hn]; exact hin c k hk,
      fun c k hk => h.own c k (by rwa [hr] at hk), hn, by rw [hd]; exact h.done_eq⟩
  refine (writes hwriting hc hkmem rfl ?_).bind fun locals s₃ h₃ => Runs.pure ?_
  · intro pre out post hsplit he
    have hnone := hok.fresh pre out post hsplit he
    refine ⟨hnone, fun hl => ?_⟩
    have hout : out ∈ (remapSpec m.name entry.1).outputs := by simp [hsplit]
    refine producer_eq hc hm (remap_written hmem hout hl) hl ?_ ?_
    · intro hp
      obtain ⟨k, hk⟩ := Option.ne_none_iff_exists'.1 (hinputs out hp)
      have : pre.foldl (bindWrite (.op m.name entry.2)) w.2.locals out = some k :=
        Draft.bindWrite_extends pre hk
      simp [hnone] at this
    · refine hext out _ ?_
      simp only [Draft.op]
      rw [hsplit, List.foldl_append, List.foldl_cons]
      refine Draft.bindWrite_extends post ?_
      simp [bindWrite, he, hnone]
  · obtain ⟨ht, hl, hlm, ho', hne, hde⟩ := h₃
    have hlocals := Ledger.writes_locals (.op m.name entry.2) (remapSpec m.name entry.1).outputs
      ((remapSpec m.name entry.1).inputs.foldl (Ledger.read ms m (.op m.name entry.2) w.2.locals)
        (w.1.addNode (.op m.name entry.2)), w.2.locals)
    rw [hlocals] at hl hlm ho'
    have hnodes : (Ledger.planOp ms m w entry).1.nodes = w.1.nodes ++ [.op m.name entry.2] := hne
    refine ⟨⟨hl, h.frame.first, rfl, h.frame.outputs⟩, ht, hlm, ?_, ?_, ?_, ho', ?_, hde⟩
    · intro k hk
      rw [hnodes]
      exact List.mem_append_left _ (h.first_mem k hk)
    · intro k hk
      obtain rfl : NodeKey.op m.name entry.2 = k := by
        simpa [Ledger.planOp, Draft.op] using hk
      rw [hnodes]
      simp
    · intro k hk
      rw [hnodes]
      exact List.mem_append_left _ (h.outputs_mem k hk)
    · intro k hk
      rw [hnodes] at hk
      rcases List.mem_append.1 hk with hk | hk
      · exact h.modules k hk
      · obtain rfl := List.mem_singleton.1 hk
        exact .inl rfl

theorem output (h : Stage ms m done fr s w) (hc : Compilable ms) (hm : m ∈ ms) {port : String}
    (hp : port ∈ m.outputs) (hinputs : ∀ p ∈ m.inputs, w.2.locals p ≠ none)
    (hext : (w.2.output m port).Extends m.draft) :
    Runs (compileOutput m fr port) s fun fr' s' =>
      Stage ms m done fr' s' (Ledger.planOutput ms m w port) := by
  unfold compileOutput
  cases hl : w.2.locals port with
  | some k =>
    have hfl : fr.locals port = some k.id := by rw [h.frame.locals, hl]; rfl
    rw [hfl]
    refine Runs.pure ?_
    have hplan : Ledger.planOutput ms m w port =
        (w.1, { w.2 with outputs := w.2.outputs ++ [k] }) := by
      simp [Ledger.planOutput, Draft.output, hl]
    rw [hplan]
    refine ⟨⟨h.frame.locals, h.frame.first, h.frame.tail, ?_⟩, h.tracks, h.locals_mem, h.first_mem,
      h.tail_mem, ?_, h.own, h.modules, h.done_eq⟩
    · simp [h.frame.outputs]
    · intro k' hk'
      rcases List.mem_append.1 hk' with hk' | hk'
      · exact h.outputs_mem k' hk'
      · obtain rfl := List.mem_singleton.1 hk'
        exact h.locals_mem port k' hl
  | none =>
    have hfl : fr.locals port = none := by rw [h.frame.locals, hl]; rfl
    rw [hfl]
    have hkey : IsKey ms (.output m.name port) := ⟨m, hm, rfl, hp⟩
    refine (h.tracks.addAnchor hc hkey (by simp) m ⟨m, hm, .inr (.inl hp)⟩ fr).bind
      fun fr₁ s₁ ⟨hfr, h₁⟩ => ?_
    subst hfr
    have hmem : NodeKey.output m.name port ∈ (w.1.addNode (.output m.name port)).nodes := by
      simp [Ledger.addNode]
    refine (h₁.wireInput hc hmem (m := m) h.frame.locals
      (fun c k hk => List.mem_append_left _ (h.locals_mem c k hk)) h.own port).bind fun _ s₂ h₂ => ?_
    have hdraft : w.2.output m port = { w.2.anchored (.output m.name port) with
        locals := Function.update w.2.locals port (some (.output m.name port))
        outputs := w.2.outputs ++ [.output m.name port]
        tail := some (.output m.name port) } := by
      simp [Draft.output, hl]
    have hord : isLocalName port = false → producer ms port = some (.output m.name port) ∧
        ∃ x ∈ writer ms port, x.name = (NodeKey.output m.name port).module := by
      intro hloc
      refine producer_eq hc hm (List.mem_append_left _ hp) hloc ?_ ?_
      · exact fun hi => hinputs port hi hl
      · exact hext port _ (by rw [hdraft]; simp)
    refine (h₂.registerProducer hc hmem hord).bind fun _ s₃ h₃ => Runs.pure ?_
    have hframe := h.frame.anchored (.output m.name port)
    have hplan : Ledger.planOutput ms m w port =
        (((w.1.addNode (.output m.name port)).read ms m (.output m.name port) w.2.locals
          port).register port (.output m.name port), w.2.output m port) := by
      simp [Ledger.planOutput, hl]
    rw [hplan, hdraft]
    refine ⟨⟨fun c => ?_, hframe.first, rfl, ?_⟩, h₃, ?_, ?_, ?_, ?_, ?_, ?_, h.done_eq⟩
    · by_cases hcp : c = port
      · subst hcp
        simp [Frame.bind, NodeKey.id]
      · simpa [Frame.bind, anchorFrame, hcp] using h.frame.locals c
    · simp [anchorFrame, h.frame.outputs, NodeKey.id]
    · intro c k hk
      by_cases hcp : c = port
      · subst hcp
        obtain rfl : NodeKey.output m.name c = k := by simpa using hk
        exact hmem
      · exact List.mem_append_left _ (h.locals_mem c k (by simpa [hcp] using hk))
    · intro k hk
      rcases Draft.first_anchored hk with hk | rfl
      · exact List.mem_append_left _ (h.first_mem k hk)
      · exact hmem
    · intro k hk
      obtain rfl : NodeKey.output m.name port = k := by simpa using hk
      exact hmem
    · intro k hk
      rcases List.mem_append.1 hk with hk | hk
      · exact List.mem_append_left _ (h.outputs_mem k hk)
      · obtain rfl := List.mem_singleton.1 hk
        exact hmem
    · intro c k hk hkm
      by_cases hcp : c = port
      · simp [hcp]
      · rcases List.mem_cons.1 hk with he | hk
        · exact absurd (Prod.mk.inj he).1 hcp
        · simpa [hcp] using h.own c k hk hkm
    · intro k hk
      rcases List.mem_append.1 hk with hk | hk
      · exact h.modules k hk
      · obtain rfl := List.mem_singleton.1 hk
        exact .inl rfl

theorem noop (h : Stage ms m done fr s w) (hc : Compilable ms) (hm : m ∈ ms) :
    Runs (compileNoop m fr) s fun fr' s' => Stage ms m done fr' s' (Ledger.planNoop m w) := by
  unfold compileNoop
  cases ht : w.2.tail with
  | some k =>
    have hne : fr.tail.isEmpty = false := by simp [h.frame.tail, ht, k.id_isEmpty]
    have hplan : Ledger.planNoop m w = w := by simp [Ledger.planNoop, Draft.noop, ht]
    simp only [hne, Bool.false_eq_true, if_false, hplan]
    exact Runs.pure h
  | none =>
    have he : fr.tail.isEmpty = true := by simp [h.frame.tail, ht]
    simp only [he, if_true]
    have hkey : IsKey ms (.noop m.name) := ⟨m, hm, rfl⟩
    refine (h.tracks.addAnchor hc hkey (by simp) m ⟨m, hm, .inr (.inr (.inl rfl))⟩ fr).bind
      fun fr₁ s₁ ⟨hfr, h₁⟩ => ?_
    subst hfr
    have hframe := h.frame.anchored (.noop m.name)
    have hmem : NodeKey.noop m.name ∈ (w.1.addNode (.noop m.name)).nodes := by simp [Ledger.addNode]
    have hplan : Ledger.planNoop m w = (w.1.addNode (.noop m.name),
        { w.2.anchored (.noop m.name) with tail := some (.noop m.name) }) := by
      simp [Ledger.planNoop, Draft.noop, ht]
    rw [hplan]
    refine Runs.pure ⟨⟨hframe.locals, hframe.first, rfl, hframe.outputs⟩, h₁, ?_, ?_, ?_, ?_, h.own,
      ?_, h.done_eq⟩
    · exact fun c k hk => List.mem_append_left _ (h.locals_mem c k hk)
    · intro k hk
      rcases Draft.first_anchored hk with hk | rfl
      · exact List.mem_append_left _ (h.first_mem k hk)
      · exact hmem
    · intro k hk
      obtain rfl : NodeKey.noop m.name = k := by simpa using hk
      exact hmem
    · exact fun k hk => List.mem_append_left _ (h.outputs_mem k hk)
    · intro k hk
      rcases List.mem_append.1 hk with hk | hk
      · exact h.modules k hk
      · obtain rfl := List.mem_singleton.1 hk
        exact .inl rfl

theorem tailOf_eq (hc : Compilable ms) (hm : m ∈ ms) : tailOf ms m.name = some m.tail := by
  unfold tailOf
  cases hf : ms.find? (·.name = m.name) with
  | none =>
    have := List.find?_eq_none.1 hf m hm
    simp at this
  | some m' =>
    have hname : m'.name = m.name := by simpa using List.find?_some hf
    obtain rfl := List.inj_on_of_nodup_map hc.names (List.mem_of_find?_eq_some hf) hm hname
    rfl

theorem tail_plain (hc : Compilable ms) (hm : m ∈ ms) : m.tail.Plain := by
  have hk := (Draft.owned_draft m).tail m.tail m.draft_tail
  rw [NodeKey.Plain, hk]
  exact hc.plain m hm

theorem wireDep (hc : Compilable ms) {L : Ledger} (h : Tracks ms s L) {key : NodeKey}
    (hkey : key ∈ L.nodes) {name : String} (hdep : ∃ m' ∈ ms, m'.name = name) :
    Runs (Biz.wireDep key.id name) s fun _ s' =>
      Tracks ms s' { L.addEdges key (L.targets ms name) with tails := name :: L.tails } := by
  unfold Biz.wireDep
  refine runs_get ?_
  rw [h.info name]
  cases hf : L.done.find? (·.name = name) with
  | some m' =>
    have hname : m'.name = name := by simpa using List.find?_some hf
    have hmem := List.mem_of_find?_eq_some hf
    obtain ⟨-, houts, htail⟩ := h.done m' hmem
    have htails : ∀ {s'' : Compiler} {L'' : Ledger}, Tracks ms s'' L'' → L''.done = L.done →
        Tracks ms s'' { L'' with tails := name :: L''.tails } := by
      intro s'' L'' h'' hd
      refine { h'' with tail := fun d => ?_ }
      rw [h''.tail d]
      by_cases he : d = name
      · have hin : d ∈ L''.done.map (·.name) := by
          rw [hd, he, ← hname]
          exact List.mem_map_of_mem hmem
        simp [hin]
      · have hcongr : d ∈ name :: L''.tails ↔ d ∈ L''.tails := by simp [he]
        simp only [hcongr]
    simp only [Option.map_some, Module.info]
    by_cases ho : m'.draft.outputs = []
    · simp only [ho, List.map_nil, ne_eq, not_true_eq_false, if_false, m'.tail.id_isEmpty,
        Bool.false_eq_true]
      refine (h.addDependency hc hkey htail).mono fun _ s'' h'' => ?_
      simpa [Ledger.targets, hf, ho, Ledger.addEdges] using htails h'' rfl
    · have hne : m'.draft.outputs.map NodeKey.id ≠ [] := by simpa using ho
      simp only [hne, ne_eq, not_false_eq_true, if_true]
      refine (h.addDependencies hc hkey houts).mono fun _ s'' h'' => ?_
      simpa [Ledger.targets, hf, ho, Ledger.addEdges] using htails h'' rfl
  | none =>
    obtain ⟨m', hm', hname⟩ := hdep
    have hdone : name ∉ L.done.map (·.name) := by
      intro hin
      obtain ⟨x, hx, hxn⟩ := List.mem_map.1 hin
      have := List.find?_eq_none.1 hf x hx
      simp [hxn] at this
    have htail : tailOf ms name = some m'.tail := hname ▸ tailOf_eq hc hm'
    simp only [Option.map_none]
    refine (h.tailPlaceholder hc hdone).bind fun id s' hplaced => ?_
    obtain ⟨rfl, h'⟩ := hplaced
    have hstand : Standing s' (tailPlaceholderId name) := by
      refine .inr ⟨name, ?_⟩
      rw [h'.tail name]
      simp only [List.mem_cons, true_or, true_and]
      exact if_pos hdone
    obtain ⟨g, hg, ht⟩ := h'.graph.addDependency hkey
      ((h'.graph.has _).2 (.inr hstand)) (.inl ⟨m'.tail, rfl, tail_plain hc hm', .inr (.tail htail)⟩)
    refine runs_onGraph hg ?_
    have hfinal : Tracks ms { s' with graph := g } { L with
        edges := L.edges ++ [(key, m'.tail)]
        tails := name :: L.tails } := { h' with graph := ht }
    simpa [Ledger.targets, hf, htail, Ledger.addEdges] using hfinal

theorem wireFirst (hc : Compilable ms) {L : Ledger} (h : Tracks ms s L) {key first : NodeKey}
    (hkey : key ∈ L.nodes) (hfirst : first ∈ L.nodes) :
    Runs (Biz.wireFirst first.id key.id) s fun _ s' =>
      Tracks ms s' (if first.id = key.id then L else L.addEdges first [key]) := by
  unfold Biz.wireFirst
  by_cases he : first.id = key.id
  · simp only [he, or_true, if_true]
    exact Runs.pure h
  · simp only [first.id_isEmpty, he, Bool.false_eq_true, or_self, if_false]
    exact h.addDependency hc hfirst hkey

theorem dep (h : Stage ms m done fr s w) (hc : Compilable ms) (hm : m ∈ ms) {name : String}
    (hd : name ∈ m.dependencies) (htail : w.2.tail ≠ none) :
    Runs (compileDep m fr name) s fun fr' s' =>
      Stage ms m done fr' s' (Ledger.planDep ms m w name) := by
  unfold compileDep
  have hkey : IsKey ms (.dep m.name name) := ⟨m, hm, rfl, hd⟩
  obtain ⟨k, hk⟩ := Option.ne_none_iff_exists'.1 htail
  have hcol : Declared ms m.name := ⟨m, hm, .inr (.inr (.inr ⟨rfl, List.ne_nil_of_mem hd⟩))⟩
  refine (h.tracks.addAnchor hc hkey (by simp) m hcol fr).bind fun fr₁ s₁ ⟨hfr, h₁⟩ => ?_
  subst hfr
  have hframe := h.frame.anchored (.dep m.name name)
  have hmem : NodeKey.dep m.name name ∈ (w.1.addNode (.dep m.name name)).nodes := by
    simp [Ledger.addNode]
  refine (wireDep hc h₁ hmem (hc.deps m hm name hd)).bind fun _ s₂ h₂ => ?_
  have hfirst : ∃ f, (w.2.dep m name).first = some f ∧
      f ∈ (w.1.addNode (.dep m.name name)).nodes := by
    cases hf : w.2.first with
    | none => exact ⟨_, by simp [Draft.dep, Draft.anchored, hf], hmem⟩
    | some f =>
      exact ⟨f, by simp [Draft.dep, Draft.anchored, hf], List.mem_append_left _ (h.first_mem f hf)⟩
  obtain ⟨f, hf, hfm⟩ := hfirst
  have hff : (anchorFrame fr (NodeKey.dep m.name name).id).firstNode = f.id := by
    rw [hframe.first]
    exact congrArg (fun o : Option NodeKey => (o.map NodeKey.id).getD "") hf
  rw [hff]
  refine (wireFirst hc h₂ hmem hfm).bind fun _ s₃ h₃ => Runs.pure ?_
  have hnodes : (Ledger.planDep ms m w name).1.nodes = (w.1.addNode (.dep m.name name)).nodes := by
    simp only [Ledger.planDep]
    split_ifs <;> rfl
  have hregs : (Ledger.planDep ms m w name).1.regs = w.1.regs := by
    simp only [Ledger.planDep]
    split_ifs <;> rfl
  have hdone : (Ledger.planDep ms m w name).1.done = w.1.done := by
    simp only [Ledger.planDep]
    split_ifs <;> rfl
  have hne : fr.tail.isEmpty = false := by simp [h.frame.tail, hk, k.id_isEmpty]
  refine ⟨⟨hframe.locals, hff ▸ hframe.first, ?_, hframe.outputs⟩, ?_, ?_, ?_, ?_, ?_, ?_, ?_,
    hdone.trans h.done_eq⟩
  · simpa [anchorFrame, hne, Ledger.planDep, Draft.dep, Draft.anchored] using h.frame.tail
  · have hplan : (Ledger.planDep ms m w name).1 =
        if f.id = (NodeKey.dep m.name name).id then
          { (w.1.addNode (.dep m.name name)).addEdges (.dep m.name name)
              ((w.1.addNode (.dep m.name name)).targets ms name) with
            tails := name :: w.1.tails }
        else Ledger.addEdges { (w.1.addNode (.dep m.name name)).addEdges (.dep m.name name)
              ((w.1.addNode (.dep m.name name)).targets ms name) with
            tails := name :: w.1.tails } f [.dep m.name name] := by
      simp only [Ledger.planDep, hf, Option.getD_some]
      rfl
    rw [hplan]
    exact h₃
  · intro c k' hk'
    rw [hnodes]
    exact List.mem_append_left _ (h.locals_mem c k' hk')
  · intro k' hk'
    rw [hnodes]
    rcases Draft.first_anchored hk' with hk' | rfl
    · exact List.mem_append_left _ (h.first_mem k' hk')
    · exact hmem
  · intro k' hk'
    rw [hnodes]
    exact List.mem_append_left _ (h.tail_mem k' hk')
  · intro k' hk'
    rw [hnodes]
    exact List.mem_append_left _ (h.outputs_mem k' hk')
  · intro c k' hk'
    rw [hregs] at hk'
    exact h.own c k' hk'
  · intro k' hk'
    rw [hnodes] at hk'
    rcases List.mem_append.1 hk' with hk' | hk'
    · exact h.modules k' hk'
    · obtain rfl := List.mem_singleton.1 hk'
      exact .inl rfl

end Stage

structure Boundary (ms done : List Module) (s : Compiler) (L : Ledger) : Prop where
  tracks : Tracks ms s L
  done_eq : L.done = done
  modules : ∀ k ∈ L.nodes, k.module ∈ done.map (·.name)

section

variable {m : Module} {done : List Module} {s : Compiler}

theorem Boundary.stage {L : Ledger} (h : Boundary ms done s L) (hnew : m.name ∉ done.map (·.name)) :
    Stage ms m done .start s (L, .empty) where
  frame := ⟨fun _ => rfl, rfl, rfl, rfl⟩
  tracks := h.tracks
  locals_mem := by simp [Draft.empty]
  first_mem := by simp [Draft.empty]
  tail_mem := by simp [Draft.empty]
  outputs_mem := by simp [Draft.empty]
  own := by
    intro c k hk hmod
    have := h.modules k (h.tracks.regs c k hk).1
    exact absurd (hmod ▸ this) hnew
  modules := fun k hk => .inr (h.modules k hk)
  done_eq := h.done_eq

theorem planInputs_nodes (m : Module) (ports : List String) (w : Ledger × Draft) :
    (ports.foldl (Ledger.planInput ms m) w).1.nodes =
      w.1.nodes ++ ports.map (NodeKey.input m.name) := by
  induction ports generalizing w with
  | nil => simp
  | cons p ports ih =>
    rw [List.foldl_cons, ih]
    simp [Ledger.planInput, Ledger.addNode]

theorem planOp_nodes (m : Module) (w : Ledger × Draft) (entry : OpSpec × Nat) :
    (Ledger.planOp ms m w entry).1.nodes = w.1.nodes ++ [.op m.name entry.2] := by
  simp only [Ledger.planOp]
  rw [(Ledger.writes_frame _ _ _).1, (Ledger.reads_frame _ _ _ _ _ _).1]
  rfl

theorem planOps_nodes (m : Module) (entries : List (OpSpec × Nat)) (w : Ledger × Draft) :
    (entries.foldl (Ledger.planOp ms m) w).1.nodes =
      w.1.nodes ++ entries.map fun e => NodeKey.op m.name e.2 := by
  induction entries generalizing w with
  | nil => simp
  | cons e entries ih =>
    rw [List.foldl_cons, ih, planOp_nodes]
    simp

theorem planOutput_snd (m : Module) (w : Ledger × Draft) (port : String) :
    (Ledger.planOutput ms m w port).2 = w.2.output m port := by
  unfold Ledger.planOutput
  split <;> rfl

theorem planNoop_snd (m : Module) (w : Ledger × Draft) :
    (Ledger.planNoop m w).2 = w.2.noop m := by
  unfold Ledger.planNoop
  split <;> rfl

theorem zipIdx_split {m : Module} {pre post : List (OpSpec × Nat)} {entry : OpSpec × Nat}
    (h : m.ops.zipIdx = pre ++ entry :: post) :
    m.ops[entry.2]? = some entry.1 ∧ ∀ e ∈ pre, e.2 ≠ entry.2 := by
  have hmem : entry ∈ m.ops.zipIdx := by simp [h]
  refine ⟨List.mem_zipIdx_iff_getElem?.1 hmem, fun e he heq => ?_⟩
  have hnd : (m.ops.zipIdx.map Prod.snd).Nodup := by
    rw [List.zipIdx_map_snd]
    exact List.nodup_range'
  rw [h, List.map_append, List.nodup_append] at hnd
  exact hnd.2.2 e.2 (List.mem_map_of_mem he) entry.2 (by simp) heq

theorem draftOps_extends (m : Module) {pre post : List (OpSpec × Nat)} {entry : OpSpec × Nat}
    (h : m.ops.zipIdx = pre ++ entry :: post) :
    Draft.Extends ((pre.foldl (Draft.op m) m.draftInputs).op m entry) m.draft := by
  have hops : Draft.Extends ((pre.foldl (Draft.op m) m.draftInputs).op m entry) m.draftOps := by
    unfold Module.draftOps
    rw [h, List.foldl_append, List.foldl_cons]
    exact Draft.extends_foldl (fun d e => Draft.extends_op e) post _
  have houts : Draft.Extends m.draftOps m.draftOutputs :=
    Draft.extends_foldl (fun d p => Draft.extends_output p) m.outputs _
  refine hops.trans (houts.trans fun c k hk => ?_)
  rw [Module.draft, Draft.noop_locals]
  exact hk

theorem draftOutputs_extends (m : Module) {pre post : List String} {port : String}
    (h : m.outputs = pre ++ port :: post) :
    Draft.Extends ((pre.foldl (Draft.output m) m.draftOps).output m port) m.draft := by
  have houts : Draft.Extends ((pre.foldl (Draft.output m) m.draftOps).output m port)
      m.draftOutputs := by
    unfold Module.draftOutputs
    rw [h, List.foldl_append, List.foldl_cons]
    exact Draft.extends_foldl (fun d p => Draft.extends_output p) post _
  refine houts.trans fun c k hk => ?_
  rw [Module.draft, Draft.noop_locals]
  exact hk

theorem inputs_bound (m : Module) {d : Draft} (h : Draft.Extends m.draftInputs d) :
    ∀ p ∈ m.inputs, d.locals p ≠ none := by
  intro p hp
  have := h p (.input m.name p) (by simp [m.draftInputs_locals, hp])
  simp [this]

theorem planDeps_snd (m : Module) (names : List String) (w : Ledger × Draft) :
    (names.foldl (Ledger.planDep ms m) w).2 = names.foldl (Draft.dep m) w.2 :=
  foldl_snd (fun _ _ => rfl) names w

theorem deps_frame (m : Module) (names : List String) (d : Draft) :
    (names.foldl (Draft.dep m) d).tail = d.tail ∧
      (names.foldl (Draft.dep m) d).outputs = d.outputs :=
  foldl_rule (P := fun d' : Draft => d'.tail = d.tail ∧ d'.outputs = d.outputs) names
    ⟨rfl, rfl⟩ fun _ _ h => h

theorem Stage.boundary {fr : Frame} {w : Ledger × Draft} (h : Stage ms m done fr s w)
    (hm : m ∈ ms) (hnew : m.name ∉ done.map (·.name)) (htail : w.2.tail = some m.tail)
    (houts : w.2.outputs = m.draft.outputs) {g : ComputeGraph}
    (hg : GraphTracks ms g w.1.nodes w.1.edges
      fun x => Standing s x ∧ x ≠ tailPlaceholderId m.name) :
    Boundary ms (done ++ [m]) { s with
      graph := g
      moduleTailPlaceholder := Function.update s.moduleTailPlaceholder m.name none
      moduleInfo := Function.update s.moduleInfo m.name
        (some ⟨m.name, m.outputs, fr.tail, fr.outputNodes⟩) }
      { w.1 with done := done ++ [m] } := by
  have hfrt : fr.tail = m.tail.id := by simp [h.frame.tail, htail]
  have hfro : fr.outputNodes = m.draft.outputs.map NodeKey.id := by rw [h.frame.outputs, houts]
  have ht := h.tracks
  refine ⟨⟨hg.congr fun x => ?_, ht.column, fun d => ?_, ht.producer, ht.owner, ht.ownerLocal,
    fun d => ?_, ?_, ht.regs, ht.wanted⟩, rfl, ?_⟩
  · constructor
    · rintro ⟨⟨c, hx⟩ | ⟨d, hx⟩, hne⟩
      · exact .inl ⟨c, hx⟩
      · refine .inr ⟨d, ?_⟩
        have hdm : d ≠ m.name := by
          rintro rfl
          rw [ht.tail] at hx
          split_ifs at hx
          exact hne (Option.some.inj hx).symm
        simpa [hdm] using hx
    · rintro (⟨c, hx⟩ | ⟨d, hx⟩)
      · have hx' : s.columnPlaceholder c = some x := hx
        refine ⟨.inl ⟨c, hx'⟩, ?_⟩
        rintro rfl
        rw [ht.column] at hx'
        split_ifs at hx'
        exact placeholderId_ne_tail c m.name (Option.some.inj hx')
      · by_cases hdm : d = m.name
        · simp [hdm] at hx
        · have hx' : s.moduleTailPlaceholder d = some x := by simpa [hdm] using hx
          refine ⟨.inr ⟨d, hx'⟩, ?_⟩
          rintro rfl
          rw [ht.tail] at hx'
          split_ifs at hx'
          exact hdm (tailPlaceholderId_inj (Option.some.inj hx'))
  · by_cases hdm : d = m.name
    · simp [hdm]
    · have hcongr : d ∈ (done ++ [m]).map (·.name) ↔ d ∈ w.1.done.map (·.name) := by
        rw [h.done_eq]
        simp [hdm]
      simp only [Function.update_of_ne hdm, ht.tail d, hcongr]
  · by_cases hdm : d = m.name
    · subst hdm
      have hnone : done.find? (·.name = m.name) = none := by
        rw [List.find?_eq_none]
        intro x hx hxe
        exact hnew (List.mem_map.2 ⟨x, hx, by simpa using hxe⟩)
      simp [List.find?_append, hnone, Module.info, hfrt, hfro]
    · have hne : ¬ m.name = d := fun he => hdm he.symm
      have := ht.info d
      rw [h.done_eq] at this
      simp [List.find?_append, hdm, hne, this]
  · intro m' hm'
    rcases List.mem_append.1 hm' with hm' | hm'
    · exact ht.done m' (h.done_eq ▸ hm')
    · obtain rfl := List.mem_singleton.1 hm'
      exact ⟨hm, fun k hk => h.outputs_mem k (houts ▸ hk), h.tail_mem _ htail⟩
  · intro k hk
    rcases h.modules k hk with hk | hk
    · simp [hk]
    · simp only [List.map_append, List.mem_append]
      exact .inl hk

theorem Stage.finish {fr : Frame} {w : Ledger × Draft} (h : Stage ms m done fr s w)
    (hc : Compilable ms) (hm : m ∈ ms) (hnew : m.name ∉ done.map (·.name))
    (htail : w.2.tail = some m.tail) (houts : w.2.outputs = m.draft.outputs) :
    Runs (do
      replaceTail m fr
      modify fun c => { c with
        moduleInfo := Function.update c.moduleInfo m.name
          (some ⟨m.name, m.outputs, fr.tail, fr.outputNodes⟩) } : CompileM Unit) s
      fun _ s' => Boundary ms (done ++ [m]) s' { w.1 with done := done ++ [m] } := by
  have hfrt : fr.tail = m.tail.id := by simp [h.frame.tail, htail]
  unfold replaceTail
  have hold := h.tracks.tail m.name
  by_cases hw : m.name ∈ w.1.tails
  · rw [if_pos ⟨hw, by rw [h.done_eq]; exact hnew⟩] at hold
    obtain ⟨g, hg, ht⟩ := h.tracks.graph.replacePlaceholder hc (.inr ⟨m.name, hold⟩)
      (h.tail_mem _ htail)
      (.tail (Stage.tailOf_eq hc hm)) fun x hx => h.tracks.standing_at hx
    refine Runs.bind (Q := fun _ s' => s' = { s with
      graph := g
      moduleTailPlaceholder := Function.update s.moduleTailPlaceholder m.name none }) ?_
      fun _ s' he => ?_
    · refine runs_get ?_
      rw [hold]
      simp only [hfrt, m.tail.id_isEmpty, Bool.false_eq_true, if_false]
      refine Runs.bind (runs_onGraph (Q := fun _ s' => s' = { s with graph := g }) hg rfl)
        fun _ s' he => ?_
      subst he
      exact runs_modify rfl
    · subst he
      exact runs_modify (h.boundary hm hnew htail houts ht)
  · rw [if_neg fun hh => hw hh.1] at hold
    refine Runs.bind (Q := fun _ s' => s' = s) ?_ fun _ s' he => ?_
    · refine runs_get ?_
      rw [hold]
      exact Runs.pure rfl
    · subst he
      have hsame := h.boundary hm hnew htail houts (g := s'.graph)
        (h.tracks.graph.congr fun x => ⟨fun hx => ⟨hx, ?_⟩, And.left⟩)
      · have hkeep : Function.update s'.moduleTailPlaceholder m.name none =
            s'.moduleTailPlaceholder := Function.update_eq_self_iff.2 hold.symm
        rw [hkeep] at hsame
        exact runs_modify hsame
      · rintro rfl
        rcases hx with ⟨c, hx⟩ | ⟨d, hx⟩
        · rw [h.tracks.column] at hx
          split_ifs at hx
          exact placeholderId_ne_tail c m.name (Option.some.inj hx)
        · rw [h.tracks.tail] at hx
          split_ifs at hx with hcond
          obtain rfl := tailPlaceholderId_inj (Option.some.inj hx)
          exact hw hcond.1

theorem afterInputs_snd (m : Module) (L : Ledger) : (L.afterInputs ms m).2 = m.draftInputs :=
  foldl_snd (fun _ _ => rfl) m.inputs _

variable (ms) in
theorem ops_snd (m : Module) (L : Ledger) (entries : List (OpSpec × Nat)) :
    (entries.foldl (Ledger.planOp ms m) (L.afterInputs ms m)).2 =
      entries.foldl (Draft.op m) m.draftInputs := by
  rw [foldl_snd (g := Draft.op m) (fun _ _ => rfl), afterInputs_snd]

theorem afterOps_snd (m : Module) (L : Ledger) : (L.afterOps ms m).2 = m.draftOps :=
  ops_snd ms m L _

variable (ms) in
theorem outputs_snd (m : Module) (L : Ledger) (ports : List String) :
    (ports.foldl (Ledger.planOutput ms m) (L.afterOps ms m)).2 =
      ports.foldl (Draft.output m) m.draftOps := by
  rw [foldl_snd (g := Draft.output m) (planOutput_snd m), afterOps_snd]

theorem afterNoop_snd (m : Module) (L : Ledger) : (L.afterNoop ms m).2 = m.draft := by
  rw [Ledger.afterNoop, planNoop_snd, Ledger.afterOutputs, outputs_snd]
  rfl

theorem deps_snd (m : Module) (L : Ledger) (names : List String) :
    (names.foldl (Ledger.planDep ms m) (L.afterNoop ms m)).2.tail = some m.tail ∧
      (names.foldl (Ledger.planDep ms m) (L.afterNoop ms m)).2.outputs = m.draft.outputs := by
  obtain ⟨htail, houts⟩ := deps_frame m names m.draft
  rw [planDeps_snd, afterNoop_snd, htail, houts, m.draft_tail]
  exact ⟨rfl, rfl⟩

namespace Boundary

variable {L : Ledger} (h : Boundary ms done s L) (hc : Compilable ms) (hm : m ∈ ms)
  (hnew : m.name ∉ done.map (·.name))

section

include hc hm

theorem outputs {fr : Frame} {s₁ : Compiler} (h₁ : Stage ms m done fr s₁ (L.afterOps ms m)) :
    Runs (m.outputs.foldlM (compileOutput m) fr) s₁ fun fr' s' =>
      Stage ms m done fr' s' (L.afterOutputs ms m) := by
  refine Runs.foldlM (g := Ledger.planOutput ms m) (V := Stage ms m done) h₁ ?_
  intro pre port post fr s' hsplit h'
  have hdraft := outputs_snd ms m L pre
  refine h'.output hc hm (by simp [hsplit]) ?_ ?_
  · rw [hdraft]
    refine inputs_bound m (Draft.Extends.trans ?_
      (Draft.extends_foldl (fun d p => Draft.extends_output p) pre m.draftOps))
    exact Draft.extends_foldl (fun d e => Draft.extends_op e) m.ops.zipIdx m.draftInputs
  · rw [hdraft]
    exact draftOutputs_extends m hsplit

theorem deps {fr : Frame} {s₁ : Compiler} (h₁ : Stage ms m done fr s₁ (L.afterNoop ms m)) :
    Runs (m.dependencies.foldlM (compileDep m) fr) s₁ fun fr' s' =>
      Stage ms m done fr' s' (L.afterDeps ms m) := by
  refine Runs.foldlM (g := Ledger.planDep ms m) (V := Stage ms m done) h₁ ?_
  intro pre name post fr s' hsplit h'
  refine h'.dep hc hm (by simp [hsplit]) ?_
  rw [(deps_snd m L pre).1]
  simp

end

include h hc hm hnew

theorem inputs : Runs (m.inputs.foldlM (compileInput m) .start) s fun fr s' =>
    Stage ms m done fr s' (L.afterInputs ms m) :=
  Runs.foldlM (g := Ledger.planInput ms m) (V := Stage ms m done) (h.stage hnew)
    fun pre port post fr s' hsplit h' => h'.input hc hm (by simp [hsplit])

theorem ops {fr : Frame} {s₁ : Compiler} (h₁ : Stage ms m done fr s₁ (L.afterInputs ms m)) :
    Runs (m.ops.zipIdx.foldlM (compileOp m) fr) s₁ fun fr' s' =>
      Stage ms m done fr' s' (L.afterOps ms m) := by
  refine Runs.foldlM (g := Ledger.planOp ms m) (V := Stage ms m done) h₁ ?_
  intro pre entry post fr s' hsplit h'
  obtain ⟨hspec, hpre⟩ := zipIdx_split hsplit
  have hdraft := ops_snd ms m L pre
  refine h'.op hc hm hspec ?_ ?_ ?_ ?_
  · rw [hdraft]
    exact hc.ok m hm pre entry post hsplit
  · rw [planOps_nodes, Ledger.afterInputs, planInputs_nodes]
    simp only [List.mem_append, List.mem_map, not_or, reduceCtorEq, and_false, exists_false,
      not_false_eq_true, and_true]
    refine ⟨fun hk => hnew (h.modules _ hk), ?_⟩
    rintro ⟨e, he, heq⟩
    exact hpre e he (NodeKey.op.inj heq).2
  · rw [hdraft]
    exact inputs_bound m (Draft.extends_foldl (fun d e => Draft.extends_op e) pre _)
  · rw [hdraft]
    exact draftOps_extends m hsplit

theorem compileModule :
    Runs (Biz.compileModule m) s fun _ s' => Boundary ms (done ++ [m]) s' (L.planModule ms m) := by
  unfold Biz.compileModule
  refine (h.inputs hc hm hnew).bind fun fr₁ s₁ h₁ => ?_
  refine (h.ops hc hm hnew h₁).bind fun fr₂ s₂ h₂ => ?_
  refine (Boundary.outputs hc hm h₂).bind fun fr₃ s₃ h₃ => ?_
  refine (h₃.noop hc hm).bind fun fr₄ s₄ h₄ => ?_
  refine (Boundary.deps hc hm h₄).bind fun fr₅ s₅ h₅ => ?_
  obtain ⟨htail, houts⟩ := deps_snd m L m.dependencies
  refine (h₅.finish hc hm hnew htail houts).mono fun _ s₆ h₆ => ?_
  rw [Ledger.planModule, h.done_eq]
  exact h₆

end Boundary

end

end Lark.Column.Biz
